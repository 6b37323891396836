import FourVin.Image.Draft
import FourVin.Proofs.Image.Contents

/-!
What a draft holds while it is built. Its bytes and its listing are those of the contents added so
far with all labels at address zero, and filling its holes gives those at any other addresses.
`Draft.Holds` relates bytes, labels, holes and entries to the contents; every addition keeps it, so
a finished draft gives the image of all contents.
-/
namespace FourVin

namespace Draft

theorem overwrite_append (front old new behind : List UInt8) (h : new.length = old.length) :
    overwrite (front ++ old ++ behind).toArray front.length new =
      (front ++ new ++ behind).toArray := by
  induction new generalizing front old with
  | nil =>
    obtain rfl : old = [] := List.length_eq_zero_iff.mp h.symm
    rfl
  | cons b rest ih =>
    cases old with
    | nil => simp at h
    | cons a old =>
      have hset : (front ++ a :: old ++ behind).toArray.setIfInBounds front.length b =
          ((front ++ [b]) ++ old ++ behind).toArray := by
        simp
      have hlength : rest.length = old.length := by simpa using h
      rw [overwrite, hset, show front.length + 1 = (front ++ [b]).length by simp, ih _ _ hlength]
      simp

/-- Entries that do not begin before the place of the bytes are passed by the search. -/
theorem amend_append {offset : Nat} {later : List ListingEntry} {entry : ListingEntry}
    (hlater : ∀ e ∈ later, offset ≤ e.offset) (hentry : entry.offset < offset)
    (written : List UInt8) (earlier : List ListingEntry) :
    amend offset written (later ++ entry :: earlier) =
      later ++ overwriteEntry offset written entry :: earlier := by
  unfold amend
  induction later with
  | nil => simp [List.findIdx_cons, hentry]
  | cons e rest ih =>
    obtain ⟨he, hrest⟩ := List.forall_mem_cons.mp hlater
    have hpassed : ¬ e.offset < offset := by omega
    simpa [List.findIdx_cons, hpassed] using ih hrest

def patch (addressOf : String → UInt32) (bytes : Array UInt8) (hole : Hole) : Array UInt8 :=
  overwrite bytes hole.offset (Word.toBytes (addressOf hole.label))

def patchEntries (addressOf : String → UInt32) (entries : List ListingEntry) (hole : Hole) :
    List ListingEntry :=
  amend hole.offset (Word.toBytes (addressOf hole.label)) entries

def patchHole (addressOf : String → UInt32) (d : Draft) (hole : Hole) : Draft :=
  d.write hole.offset (Word.toBytes (addressOf hole.label))

theorem bytes_foldl_patchHole (addressOf : String → UInt32) (holes : List Hole) (d : Draft) :
    (holes.foldl (patchHole addressOf) d).bytes = holes.foldl (patch addressOf) d.bytes := by
  refine (List.foldl_hom Draft.bytes ?_).symm
  intro d hole
  simp only [patch, patchHole, write]

theorem entries_foldl_patchHole (addressOf : String → UInt32) (holes : List Hole) (d : Draft) :
    (holes.foldl (patchHole addressOf) d).entries =
      holes.foldl (patchEntries addressOf) d.entries := by
  refine (List.foldl_hom Draft.entries ?_).symm
  intro d hole
  simp only [patchEntries, patchHole, write]

def extend (layout : Layout) (d : Draft) : Declaration → Draft
  | .label name _ => d.addLabel name
  | .instruction ins => d.addCode ins ((Declaration.instruction ins).content.code layout)

structure Holds (layout : Layout) (d : Draft) (contents : List Content) : Prop where
  encodable : ∀ c ∈ contents, c.Encodable
  bytes : d.bytes.toList = contents.flatMap (Content.bytes layout fun _ => 0)
  labels : d.labels = Content.labelsFrom layout .empty 0 contents
  needed : d.holes.toList.map Hole.label = contents.filterMap fun c => (c.code layout).label?
  /-- Filling the holes gives the bytes at the addresses, whatever stands behind them. -/
  patched : ∀ addressOf behind,
    d.holes.toList.foldl (patch addressOf) (d.bytes.toList ++ behind).toArray =
      (contents.flatMap (Content.bytes layout addressOf) ++ behind).toArray
  entries : d.entries = (Content.listingFrom layout (fun _ => 0) 0 contents).reverse
  /-- Filling the holes gives the listing at the addresses, whatever entries are later. -/
  listed : ∀ addressOf later, (∀ e ∈ later, d.bytes.size ≤ e.offset) →
    d.holes.toList.foldl (patchEntries addressOf) (later ++ d.entries) =
      later ++ (Content.listingFrom layout addressOf 0 contents).reverse

theorem holds_empty (layout : Layout) : empty.Holds layout [] where
  encodable := by simp
  bytes := rfl
  labels := rfl
  needed := rfl
  patched _ _ := rfl
  entries := rfl
  listed _ _ _ := rfl

theorem Holds.size {layout : Layout} {d : Draft} {contents : List Content}
    (h : d.Holds layout contents) : d.bytes.size = Content.extent layout contents := by
  rw [← Array.length_toList, h.bytes, Content.length_flatMap_bytes layout _ h.encodable]

theorem Holds.addLabel {layout : Layout} {d : Draft} {contents : List Content}
    (h : d.Holds layout contents) (name : String) :
    (d.addLabel name).Holds layout (contents ++ [.label name]) := by
  have hbytes : ∀ addressOf,
      (contents ++ [Content.label name]).flatMap (Content.bytes layout addressOf) =
        contents.flatMap (Content.bytes layout addressOf) := by
    intro addressOf
    simp [Content.bytes, Content.code, Code.resolved]
  have hlisting : ∀ addressOf,
      Content.listingFrom layout addressOf 0 (contents ++ [Content.label name]) =
        Content.listingFrom layout addressOf 0 contents := by
    intro addressOf
    rw [Content.listingFrom_concat]
    exact List.append_nil _
  refine ⟨?_, ?_, ?_, ?_, ?_, ?_, ?_⟩
  · intro c hc
    rcases List.mem_append.mp hc with hc | hc
    · exact h.encodable c hc
    · exact List.mem_singleton.mp hc ▸ trivial
  · rw [hbytes]
    exact h.bytes
  · rw [Content.labelsFrom_concat, Nat.zero_add, ← h.size, ← h.labels]
    rfl
  · rw [List.filterMap_append, ← h.needed]
    exact (List.append_nil _).symm
  · intro addressOf behind
    rw [hbytes]
    exact h.patched addressOf behind
  · rw [hlisting]
    exact h.entries
  · intro addressOf later hlater
    rw [hlisting]
    exact h.listed addressOf later hlater

/-- The hole of a code that stands behind `front` is filled with the address of its label. -/
theorem patch_hole? (addressOf : String → UInt32) (d : Draft) (ins : Instruction) (c : Code)
    {front : List UInt8} (hfront : front.length = d.bytes.size) (behind : List UInt8) :
    (d.hole? ins c).toList.foldl (patch addressOf) (front ++ (c.bytes ++ behind)).toArray =
      (front ++ (c.resolved addressOf ++ behind)).toArray := by
  cases hlabel : c.label? with
  | none => simp [hole?, hlabel, Code.resolved_of_label?_eq_none addressOf hlabel]
  | some label =>
    have hliteral := Code.literal_of_label? hlabel
    have hbytes : c.bytes = c.header ++ Word.toBytes 0 := by
      simp [Code.bytes, Code.literalBytes, hliteral]
    have hresolved : c.resolved addressOf = c.header ++ Word.toBytes (addressOf label) := by
      simp [Code.resolved, hliteral, Literal.resolve]
    have hoffset : d.bytes.size + c.header.length = (front ++ c.header).length := by
      simp [hfront]
    have hfill := overwrite_append (front ++ c.header) (Word.toBytes 0)
      (Word.toBytes (addressOf label)) behind rfl
    simpa [hole?, hlabel, patch, hoffset, hbytes, hresolved] using hfill

/-- The hole of a code is filled in the entry of the code, past all later entries. -/
theorem patchEntries_hole? (addressOf : String → UInt32) (d : Draft) (ins : Instruction) {c : Code}
    (hheader : ∀ label, c.label? = some label → 0 < c.header.length) {later : List ListingEntry}
    (hlater : ∀ e ∈ later, d.bytes.size + c.bytes.length ≤ e.offset)
    (earlier : List ListingEntry) :
    (d.hole? ins c).toList.foldl (patchEntries addressOf)
        (later ++ ⟨d.bytes.size, ins.text, c.bytes⟩ :: earlier) =
      later ++ ⟨d.bytes.size, ins.text, c.resolved addressOf⟩ :: earlier := by
  cases hlabel : c.label? with
  | none => simp [hole?, hlabel, Code.resolved_of_label?_eq_none addressOf hlabel]
  | some label =>
    have hpos := hheader label hlabel
    have hliteral := Code.literal_of_label? hlabel
    have hbytes : c.bytes = c.header ++ Word.toBytes 0 := by
      simp [Code.bytes, Code.literalBytes, hliteral]
    have hresolved : c.resolved addressOf = c.header ++ Word.toBytes (addressOf label) := by
      simp [Code.resolved, hliteral, Literal.resolve]
    have hpassed : ∀ e ∈ later, d.bytes.size + c.header.length ≤ e.offset := by
      intro e he
      have hoffset := hlater e he
      rw [hbytes, List.length_append] at hoffset
      omega
    have hfill := overwrite_append c.header (Word.toBytes 0) (Word.toBytes (addressOf label)) [] rfl
    simp only [List.append_nil] at hfill
    have hentry : (ListingEntry.mk d.bytes.size ins.text c.bytes).offset <
        d.bytes.size + c.header.length := Nat.lt_add_of_pos_right hpos
    have hamend := amend_append hpassed hentry (Word.toBytes (addressOf label)) earlier
    simpa [hole?, hlabel, patchEntries, overwriteEntry, hbytes, hresolved, hfill] using hamend

theorem toList_holes_addCode (d : Draft) (ins : Instruction) (c : Code) :
    (d.addCode ins c).holes.toList = d.holes.toList ++ (d.hole? ins c).toList := by
  simp [addCode]

theorem Holds.addCode {layout : Layout} {d : Draft} {contents : List Content}
    (h : d.Holds layout contents) {ins : Instruction}
    (hencodable : (Declaration.instruction ins).content.Encodable) :
    (d.addCode ins ((Declaration.instruction ins).content.code layout)).Holds layout
      (contents ++ [(Declaration.instruction ins).content]) := by
  have htext : (Declaration.instruction ins).content.text = ins.text := Content.text_content _
  have hentries : ∀ addressOf offset,
      (Declaration.instruction ins).content.entries layout addressOf offset =
        [⟨offset, (Declaration.instruction ins).content.text,
          (Declaration.instruction ins).content.bytes layout addressOf⟩] := fun _ _ => rfl
  have hlabels : ∀ t offset, (Declaration.instruction ins).content.enter t offset = t :=
    fun _ _ => rfl
  -- From here on only these three facts about the content matter, and not which content it is.
  generalize (Declaration.instruction ins).content = c at *
  have hbytes : ∀ addressOf, (contents ++ [c]).flatMap (Content.bytes layout addressOf) =
      contents.flatMap (Content.bytes layout addressOf) ++ c.bytes layout addressOf := by
    intro addressOf
    simp
  have hadded : (d.addCode ins (c.code layout)).bytes.toList =
      d.bytes.toList ++ (c.code layout).bytes := by
    simp [Draft.addCode]
  have hholes := d.toList_holes_addCode ins (c.code layout)
  have hfront : ∀ addressOf,
      (contents.flatMap (Content.bytes layout addressOf)).length = d.bytes.size := by
    intro addressOf
    rw [h.size, Content.length_flatMap_bytes layout addressOf h.encodable]
  have hlisting : ∀ addressOf,
      (Content.listingFrom layout addressOf 0 (contents ++ [c])).reverse =
        ⟨d.bytes.size, ins.text, c.bytes layout addressOf⟩ ::
          (Content.listingFrom layout addressOf 0 contents).reverse := by
    intro addressOf
    rw [Content.listingFrom_concat, hentries, htext, Nat.zero_add, ← h.size,
      List.reverse_append]
    rfl
  refine ⟨?_, ?_, ?_, ?_, ?_, ?_, ?_⟩
  · intro b hb
    rcases List.mem_append.mp hb with hb | hb
    · exact h.encodable b hb
    · exact List.mem_singleton.mp hb ▸ hencodable
  · rw [hbytes, ← h.bytes, hadded, Content.bytes, Code.resolved_zero]
  · rw [Content.labelsFrom_concat, ← h.labels, hlabels]
    rfl
  · rw [hholes, List.map_append, List.filterMap_append, ← h.needed]
    cases hlabel : (c.code layout).label? <;> simp [Draft.hole?, hlabel]
  · intro addressOf behind
    -- The earlier holes are filled with the new code standing behind them, then its own hole.
    rw [hbytes, hadded, hholes, List.foldl_append, List.append_assoc, List.append_assoc,
      h.patched, patch_hole? addressOf d ins _ (hfront addressOf)]
    rfl
  · rw [hlisting, ← h.entries, Content.bytes, Code.resolved_zero]
    rfl
  · intro addressOf later hlater
    have hsize : (d.addCode ins (c.code layout)).bytes.size =
        d.bytes.size + (c.code layout).bytes.length := by
      rw [← Array.length_toList, hadded, List.length_append, Array.length_toList]
    rw [hsize] at hlater
    have hnext : ∀ e ∈ later ++ [⟨d.bytes.size, ins.text, (c.code layout).bytes⟩],
        d.bytes.size ≤ e.offset := by
      intro e he
      rcases List.mem_append.mp he with he | he
      · exact (Nat.le_add_right _ _).trans (hlater e he)
      · rw [List.mem_singleton.mp he]
    -- To the earlier holes the entry of the new code is one more of the later ones.
    have hearlier := h.listed addressOf _ hnext
    have hnew : (d.addCode ins (c.code layout)).entries =
        [⟨d.bytes.size, ins.text, (c.code layout).bytes⟩] ++ d.entries := rfl
    rw [hholes, List.foldl_append, hlisting, hnew, ← List.append_assoc, hearlier,
      List.append_assoc, List.singleton_append,
      patchEntries_hole? addressOf d ins (fun _ => Content.header_pos_of_label?) hlater,
      Content.bytes]

theorem Holds.extend {layout : Layout} {d : Draft} {contents : List Content}
    (h : d.Holds layout contents) {added : Declaration} (hadded : added.content.Encodable) :
    (d.extend layout added).Holds layout (contents ++ [added.content]) := by
  cases added with
  | label name location => exact h.addLabel name
  | instruction ins => exact h.addCode hadded

theorem Holds.foldl_extend {layout : Layout} {d : Draft} {contents : List Content}
    (h : d.Holds layout contents) {ds : List Declaration}
    (hds : ∀ added ∈ ds, added.content.Encodable) :
    (ds.foldl (Draft.extend layout) d).Holds layout
      (contents ++ ds.map Declaration.content) := by
  induction ds generalizing d contents with
  | nil => simpa using h
  | cons added rest ih =>
    obtain ⟨hadded, hrest⟩ := List.forall_mem_cons.mp hds
    simpa using ih (h.extend hadded) hrest

theorem add_eq_ok_iff (layout : Layout) (d : Draft) (added : Declaration) (e : Draft) :
    d.add layout added = .ok e ↔ added.content.Encodable ∧ e = d.extend layout added := by
  cases added with
  | label name location => simp [add, Draft.extend, Declaration.content, Content.Encodable, eq_comm]
  | instruction ins =>
    rw [add, bind_eq_ok_iff]
    constructor
    · intro h
      obtain ⟨code, hencode, hend⟩ := h
      obtain ⟨definition, hlookup, hfits, rfl⟩ := Instruction.encode_eq_ok_iff.mp hencode
      cases hend
      refine ⟨⟨definition, hlookup, hfits⟩, ?_⟩
      simp only [Draft.extend, Declaration.content, Content.code, hlookup]
    · intro h
      obtain ⟨⟨definition, hlookup, hfits⟩, rfl⟩ := h
      refine ⟨_, Instruction.encode_eq_ok_iff.mpr ⟨definition, hlookup, hfits, rfl⟩, ?_⟩
      simp only [Draft.extend, Declaration.content, Content.code, hlookup]
      rfl

/-- A draft can be built when all contents can be encoded, and it then holds them. -/
theorem ofProgram_eq_ok_iff {layout : Layout} {p : Program} {d : Draft} :
    ofProgram layout p = .ok d ↔
      (∀ added ∈ p.declarations, added.content.Encodable) ∧
        d = p.declarations.foldl (Draft.extend layout) empty :=
  foldlM_eq_ok_iff (add_eq_ok_iff layout)

theorem holds_of_ofProgram {layout : Layout} {p : Program} {d : Draft}
    (h : ofProgram layout p = .ok d) : d.Holds layout p.contents := by
  obtain ⟨hencodable, rfl⟩ := ofProgram_eq_ok_iff.mp h
  exact (holds_empty layout).foldl_extend hencodable

theorem fill_eq_ok_iff (labels : LabelTable UInt32) (d : Draft) (hole : Hole) (filled : Draft) :
    fill labels d hole = .ok filled ↔
      labels.contains hole.label = true ∧ filled = patchHole labels.addressOf d hole := by
  unfold fill patchHole LabelTable.contains LabelTable.addressOf
  cases labels.find? hole.label with
  | none => simp
  | some address => simp [eq_comm]

theorem resolve_eq_ok_iff {d filled : Draft} :
    d.resolve = .ok filled ↔
      (∀ hole ∈ d.holes.toList, d.labels.contains hole.label = true) ∧
        filled = d.holes.toList.foldl (patchHole d.labels.addressOf) d :=
  foldlM_eq_ok_iff (fill_eq_ok_iff d.labels)

end Draft

namespace Draft.Holds

theorem finish_eq_ok_iff {layout : Layout} {d : Draft} {contents : List Content}
    (h : d.Holds layout contents) {image : Image} :
    d.finish = .ok image ↔
      Content.Resolved layout (Content.labels layout contents) contents ∧
        image = Content.image layout contents := by
  have hlabels : d.labels = Content.labels layout contents := h.labels
  have hneeded : (∀ hole ∈ d.holes.toList, d.labels.contains hole.label = true) ↔
      Content.Resolved layout (Content.labels layout contents) contents := by
    rw [Content.Resolved, ← h.needed, List.forall_mem_map, hlabels]
  have hpatched := h.patched d.labels.addressOf []
  have hlisted := h.listed d.labels.addressOf [] nofun
  simp only [List.append_nil, List.nil_append, Array.toArray_toList] at hpatched hlisted
  have himage : Content.image layout contents =
      ⟨(d.holes.toList.foldl (patchHole d.labels.addressOf) d).bytes.toList, d.labels,
        (d.holes.toList.foldl (patchHole d.labels.addressOf) d).entries.reverse⟩ := by
    rw [bytes_foldl_patchHole, entries_foldl_patchHole, hpatched, hlisted, List.reverse_reverse,
      hlabels]
    rfl
  rw [finish, bind_eq_ok_iff, himage]
  constructor
  · intro hfinish
    obtain ⟨filled, hresolve, hend⟩ := hfinish
    obtain ⟨hholes, rfl⟩ := resolve_eq_ok_iff.mp hresolve
    cases hend
    exact ⟨hneeded.mp hholes, rfl⟩
  · intro hresolved
    obtain ⟨hresolved, rfl⟩ := hresolved
    exact ⟨_, resolve_eq_ok_iff.mpr ⟨hneeded.mpr hresolved, rfl⟩, rfl⟩

end Draft.Holds

/-- A program has an image exactly when all its contents can be encoded and all addresses that they
need are those of labels, and the image depends on the contents alone. -/
theorem Image.ofProgram_eq_ok_iff {layout : Layout} {p : Program} {image : Image} :
    Image.ofProgram layout p = .ok image ↔
      (∀ c ∈ p.contents, c.Encodable) ∧
        Content.Resolved layout (Content.labels layout p.contents) p.contents ∧
        image = Content.image layout p.contents := by
  rw [Image.ofProgram, bind_eq_ok_iff]
  constructor
  · intro h
    obtain ⟨d, hd, hfinish⟩ := h
    have hholds := Draft.holds_of_ofProgram hd
    exact ⟨hholds.encodable, hholds.finish_eq_ok_iff.mp hfinish⟩
  · intro h
    obtain ⟨hencodable, himage⟩ := h
    have hd : Draft.ofProgram layout p =
        .ok (p.declarations.foldl (Draft.extend layout) Draft.empty) :=
      Draft.ofProgram_eq_ok_iff.mpr ⟨List.forall_mem_map.mp hencodable, rfl⟩
    exact ⟨_, hd, (Draft.holds_of_ofProgram hd).finish_eq_ok_iff.mpr himage⟩

end FourVin
