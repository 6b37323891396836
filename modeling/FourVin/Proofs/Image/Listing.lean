import FourVin.Proofs.Image.Layouts
import Mathlib.Data.List.Chain

/-!
The listing against the bytes. The entries of a listing stand in the order of the instructions, each
begins where the one before it ends, and together they hold the bytes of the image.

An address is written into the bytes and into an entry that is searched from the end of the listing.
Filling a hole moves no entry, so the search can be followed in the draft with all holes open: it
passes the entries behind the instruction that left the hole and stops at the entry of that
instruction, within which the address lies.
-/
namespace FourVin

namespace Content

theorem text_listingFrom (layout : Layout) (addressOf : String → UInt32) (offset : Nat)
    (ds : List Declaration) :
    (listingFrom layout addressOf offset (ds.map Declaration.content)).map ListingEntry.text =
      (Program.mk ds).instructions.map Instruction.text := by
  induction ds generalizing offset with
  | nil => rfl
  | cons d rest ih =>
    cases d with
    | label name location => exact ih offset
    | instruction ins =>
      have htext : (Declaration.instruction ins).content.text = ins.text := text_content _
      rw [List.map_cons, listingFrom, List.map_append, ih, Program.instructions_instruction,
        List.map_cons, ← htext]
      rfl

theorem bytes_entries (layout : Layout) (addressOf : String → UInt32) (offset : Nat)
    (c : Content) :
    (c.entries layout addressOf offset).flatMap ListingEntry.bytes = c.bytes layout addressOf := by
  cases c with
  | label name => rfl
  | instruction mnemonic values => exact List.append_nil _

theorem bytes_listingFrom (layout : Layout) (addressOf : String → UInt32) (offset : Nat)
    (contents : List Content) :
    (listingFrom layout addressOf offset contents).flatMap ListingEntry.bytes =
      contents.flatMap (bytes layout addressOf) := by
  induction contents generalizing offset with
  | nil => rfl
  | cons c rest ih => rw [listingFrom, List.flatMap_append, bytes_entries, ih, List.flatMap_cons]

/-- Entries begin where those before them end. -/
theorem isChain_listingFrom (layout : Layout) (addressOf : String → UInt32) (offset : Nat)
    {contents : List Content} (h : ∀ c ∈ contents, c.Encodable) :
    (∀ e ∈ (listingFrom layout addressOf offset contents).head?, e.offset = offset) ∧
      (listingFrom layout addressOf offset contents).IsChain fun a b =>
        b.offset = a.offset + a.bytes.length := by
  induction contents generalizing offset with
  | nil => exact ⟨nofun, .nil⟩
  | cons c rest ih =>
    obtain ⟨hc, hrest⟩ := List.forall_mem_cons.mp h
    obtain ⟨hhead, hchain⟩ := ih (offset + c.size layout) hrest
    cases c with
    | label name => exact ⟨hhead, hchain⟩
    | instruction mnemonic values =>
      refine ⟨?_, List.isChain_cons.mpr ⟨?_, hchain⟩⟩
      · intro e he
        cases he
        rfl
      · intro e he
        rw [hhead e he, length_bytes layout addressOf hc]

theorem listingFrom_append (layout : Layout) (addressOf : String → UInt32) (offset : Nat)
    (front behind : List Content) :
    listingFrom layout addressOf offset (front ++ behind) =
      listingFrom layout addressOf offset front ++
        listingFrom layout addressOf (offset + extent layout front) behind := by
  induction front generalizing offset with
  | nil => rfl
  | cons c rest ih =>
    rw [List.cons_append, listingFrom, ih, listingFrom, extent_cons, List.append_assoc,
      Nat.add_assoc]

theorem le_offset_of_mem_listingFrom {layout : Layout} {addressOf : String → UInt32} {offset : Nat}
    {contents : List Content} {e : ListingEntry}
    (h : e ∈ listingFrom layout addressOf offset contents) : offset ≤ e.offset := by
  induction contents generalizing offset with
  | nil => cases h
  | cons c rest ih =>
    rcases List.mem_append.mp h with hfirst | hrest
    · cases c with
      | label name => cases hfirst
      | instruction mnemonic values => rw [List.mem_singleton.mp hfirst]
    · exact (Nat.le_add_right _ _).trans (ih hrest)

end Content

def ListingEntry.span (e : ListingEntry) : Nat × Nat := (e.offset, e.bytes.length)

namespace Draft

/-- Writing into an entry moves no entry. -/
theorem map_span_amend (offset : Nat) (written : List UInt8) (entries : List ListingEntry) :
    (amend offset written entries).map ListingEntry.span = entries.map ListingEntry.span := by
  have hspan : ∀ e, (overwriteEntry offset written e).span = e.span := by
    intro e
    simp [overwriteEntry, ListingEntry.span]
  unfold amend
  apply List.ext_getElem?
  intro i
  rw [List.getElem?_map, List.getElem?_map, List.getElem?_modify]
  cases entries[i]? with
  | none => rfl
  | some e =>
    by_cases hi : entries.findIdx (fun e => decide (e.offset < offset)) = i
    · simp [hi, hspan]
    · simp [hi]

theorem map_span_foldl_patchHole (addressOf : String → UInt32) (holes : List Hole) (d : Draft) :
    (holes.foldl (patchHole addressOf) d).entries.map ListingEntry.span =
      d.entries.map ListingEntry.span := by
  induction holes generalizing d with
  | nil => rfl
  | cons hole rest ih => rw [List.foldl_cons, ih, patchHole, write, map_span_amend]

theorem size_foldl_patchHole (addressOf : String → UInt32) (holes : List Hole) (d : Draft) :
    (holes.foldl (patchHole addressOf) d).bytes.size = d.bytes.size := by
  induction holes generalizing d with
  | nil => rfl
  | cons hole rest ih => rw [List.foldl_cons, ih, patchHole, write, size_overwrite]

/-- Where the search for an entry stops can be told from where the entries begin. -/
theorem exists_find?_of_spans {offset : Nat} {entries later earlier : List ListingEntry}
    {entry : ListingEntry} (hlater : ∀ e ∈ later, offset ≤ e.offset)
    (hentry : entry.offset < offset)
    (h : entries.map ListingEntry.span = (later ++ entry :: earlier).map ListingEntry.span) :
    ∃ found, entries.find? (fun e => e.offset < offset) = some found ∧
      entries[later.length]? = some found ∧ found.span = entry.span := by
  induction later generalizing entries with
  | nil =>
    cases entries with
    | nil => cases h
    | cons found rest =>
      obtain ⟨hspan, -⟩ := List.cons.inj h
      have hoffset : found.offset = entry.offset := congrArg Prod.fst hspan
      refine ⟨found, ?_, rfl, hspan⟩
      rw [List.find?_cons_of_pos]
      simpa [hoffset] using hentry
  | cons first others ih =>
    obtain ⟨hfirst, hothers⟩ := List.forall_mem_cons.mp hlater
    cases entries with
    | nil => cases h
    | cons e rest =>
      obtain ⟨hspan, hrest⟩ := List.cons.inj h
      have hoffset : e.offset = first.offset := congrArg Prod.fst hspan
      obtain ⟨found, hfound, hindex, heq⟩ := ih hothers hrest
      refine ⟨found, ?_, hindex, heq⟩
      rw [List.find?_cons_of_neg, hfound]
      simpa [hoffset] using hfirst

/-- A word from `offset` on lies within the bytes of the draft. The latest entry that begins before
the word is the one with the given index in the listing, and the word lies within it too. -/
structure Places (d : Draft) (offset index : Nat) : Prop where
  inBytes : offset + 4 ≤ d.bytes.size
  inEntry : ∃ entry, d.entries.find? (fun e => e.offset < offset) = some entry ∧
    d.entries.reverse[index]? = some entry ∧ offset + 4 ≤ entry.offset + entry.bytes.length

theorem Places.foldl_patchHole {d : Draft} {offset : Nat} {later earlier : List ListingEntry}
    {entry : ListingEntry} (hbytes : offset + 4 ≤ d.bytes.size)
    (hentries : d.entries = later ++ entry :: earlier) (hlater : ∀ e ∈ later, offset ≤ e.offset)
    (hentry : entry.offset < offset) (hend : offset + 4 ≤ entry.offset + entry.bytes.length)
    (addressOf : String → UInt32) (holes : List Hole) :
    (holes.foldl (patchHole addressOf) d).Places offset earlier.length where
  inBytes := by
    rw [size_foldl_patchHole]
    exact hbytes
  inEntry := by
    have hspans := map_span_foldl_patchHole addressOf holes d
    generalize (holes.foldl (patchHole addressOf) d).entries = entries at hspans
    rw [hentries] at hspans
    obtain ⟨found, hfound, hindex, hspan⟩ := exists_find?_of_spans hlater hentry hspans
    have hlength : entries.length = later.length + (earlier.length + 1) := by
      simpa using congrArg List.length hspans
    refine ⟨found, hfound, ?_, ?_⟩
    · rw [List.getElem?_reverse (by omega),
        show entries.length - 1 - earlier.length = later.length by omega, hindex]
    · have hoffset : found.offset = entry.offset := congrArg Prod.fst hspan
      have hsize : found.bytes.length = entry.bytes.length := congrArg Prod.snd hspan
      rw [hoffset, hsize]
      exact hend

end Draft

/-- The instruction leaves the hole when it is added to the draft of the declarations before it. -/
def Instruction.Leaves (layout : Layout) (before : List Declaration) (ins : Instruction)
    (hole : Hole) : Prop :=
  ∃ d code, Draft.ofProgram layout ⟨before⟩ = .ok d ∧ ins.encode layout = .ok code ∧
    d.hole? ins code = some hole

namespace Draft

theorem ofProgram_concat_eq_ok_iff {layout : Layout} {ds : List Declaration} {added : Declaration}
    {e : Draft} :
    ofProgram layout ⟨ds ++ [added]⟩ = .ok e ↔
      ∃ d, ofProgram layout ⟨ds⟩ = .ok d ∧ d.add layout added = .ok e := by
  unfold ofProgram
  simp only [List.foldlM_append, List.foldlM_cons, List.foldlM_nil, bind_pure]
  exact bind_eq_ok_iff

/-- Every hole of a draft was left by one of its instructions. -/
theorem exists_leaves {layout : Layout} {ds : List Declaration} {d : Draft}
    (h : ofProgram layout ⟨ds⟩ = .ok d) {hole : Hole} (hhole : hole ∈ d.holes.toList) :
    ∃ before ins after, ds = before ++ .instruction ins :: after ∧
      ins.Leaves layout before hole := by
  induction ds using List.reverseRecOn generalizing d with
  | nil =>
    cases h
    cases hhole
  | append_singleton ds added ih =>
    obtain ⟨e, he, hadd⟩ := ofProgram_concat_eq_ok_iff.mp h
    -- A hole of an earlier declaration stays where it was.
    have hearlier : hole ∈ e.holes.toList → ∃ before ins after,
        ds ++ [added] = before ++ .instruction ins :: after ∧ ins.Leaves layout before hole := by
      intro hmem
      obtain ⟨before, ins, after, rfl, hleaves⟩ := ih he hmem
      exact ⟨before, ins, after ++ [added], by simp, hleaves⟩
    cases added with
    | label name location =>
      cases hadd
      exact hearlier hhole
    | instruction ins =>
      obtain ⟨code, hencode, hend⟩ := bind_eq_ok_iff.mp hadd
      cases hend
      rw [toList_holes_addCode, List.mem_append] at hhole
      rcases hhole with hmem | hmem
      · exact hearlier hmem
      · exact ⟨ds, ins, [], rfl, e, code, he, hencode, Option.mem_toList.mp hmem⟩

/-- An instruction that leaves a hole has its address word behind a header of four bytes, at the end
of its code. -/
theorem offset_of_leaves {layout : Layout} {before : List Declaration} {ins : Instruction}
    {hole : Hole} (h : ins.Leaves layout before hole) :
    hole.offset = Content.extent layout (before.map Declaration.content) + 4 ∧
      ins.content.size layout = 8 := by
  obtain ⟨d, code, hd, hencode, hhole⟩ := h
  obtain ⟨definition, hlookup, -, rfl⟩ := Instruction.encode_eq_ok_iff.mp hencode
  obtain ⟨label, hlabel, rfl⟩ := Option.map_eq_some_iff.mp hhole
  have hcode := Content.code_of_lookup layout ins.values hlookup
  rw [← hcode] at hlabel
  obtain ⟨mnemonic, values, heq, hlast⟩ := Content.label?_code_eq_some hlabel
  cases heq
  have hne : ins.values ≠ [] := by
    intro hnil
    rw [hnil] at hlast
    cases hlast
  refine ⟨?_, Content.size_of_literal layout hlast⟩
  dsimp only
  rw [(holds_of_ofProgram hd).size, Definition.code, definition.header_of_ne_nil layout hne]
  rfl

/-- While the holes of a draft are filled, each of them finds the entry of its instruction. -/
theorem places_of_leaves {layout : Layout} {before after : List Declaration} {ins : Instruction}
    {hole : Hole} {d : Draft} (hd : ofProgram layout ⟨before ++ .instruction ins :: after⟩ = .ok d)
    (hleaves : ins.Leaves layout before hole) (addressOf : String → UInt32) (holes : List Hole) :
    (holes.foldl (patchHole addressOf) d).Places hole.offset
      (Program.mk before).instructions.length := by
  have hholds := holds_of_ofProgram hd
  obtain ⟨hoffset, hsize⟩ := offset_of_leaves hleaves
  have hcontents : (Program.mk (before ++ .instruction ins :: after)).contents =
      before.map Declaration.content ++ ins.content :: after.map Declaration.content := by
    rw [Program.contents, List.map_append, List.map_cons]
    rfl
  have hencodable : ins.content.Encodable :=
    hholds.encodable _ (by rw [hcontents]; simp)
  have hend : hole.offset + 4 ≤ Content.extent layout (before.map Declaration.content) +
      (ins.content.bytes layout fun _ => 0).length := by
    rw [Content.length_bytes layout _ hencodable]
    omega
  have hbytes := hholds.size
  have hentries := hholds.entries
  rw [hcontents, Content.listingFrom_append, Content.listingFrom, Nat.zero_add, List.reverse_append,
    List.reverse_append, List.append_assoc] at hentries
  rw [hcontents, Content.extent, List.map_append, List.sum_append, List.map_cons,
    List.sum_cons] at hbytes
  rw [← Content.length_listingFrom layout (fun _ => 0) 0, ← Content.listingFrom_declarations,
    ← List.length_reverse]
  refine Places.foldl_patchHole ?_ hentries ?_ ?_ ?_ addressOf holes
  · unfold Content.extent at hoffset
    omega
  · intro e he
    have hbehind := Content.le_offset_of_mem_listingFrom (List.mem_reverse.mp he)
    omega
  · dsimp only
    omega
  · exact hend

end Draft

/-- The entries of a listing are those of the instructions in order. They stand without gaps from
the start of the image to its end and hold its bytes, addresses included: each hole that is filled
lies within the bytes, and the search for an entry finds that of the instruction that left the hole,
within which the hole lies. -/
theorem Image.listing_partitions_bytes {layout : Layout} {p : Program} {image : Image}
    (h : Image.ofProgram layout p = .ok image) :
    image.listing.map ListingEntry.text = p.instructions.map Instruction.text ∧
      (∀ e ∈ image.listing.head?, e.offset = 0) ∧
      (image.listing.IsChain fun a b => b.offset = a.offset + a.bytes.length) ∧
      image.listing.flatMap ListingEntry.bytes = image.bytes ∧
      ∃ draft, Draft.ofProgram layout p = .ok draft ∧
        ∀ done hole rest, draft.holes.toList = done ++ hole :: rest →
          ∃ before ins after filled,
            p.declarations = before ++ .instruction ins :: after ∧
            ins.Leaves layout before hole ∧
            done.foldlM (Draft.fill draft.labels) draft = .ok filled ∧
            filled.Places hole.offset (Program.mk before).instructions.length := by
  obtain ⟨draft, hdraft, hfinish⟩ := bind_eq_ok_iff.mp h
  obtain ⟨hencodable, -, rfl⟩ := Image.ofProgram_eq_ok_iff.mp h
  obtain ⟨hhead, hchain⟩ := Content.isChain_listingFrom layout
    (Content.labels layout p.contents).addressOf 0 hencodable
  refine ⟨Content.text_listingFrom layout _ 0 p.declarations, hhead, hchain,
    Content.bytes_listingFrom layout _ 0 p.contents, draft, hdraft, ?_⟩
  intro done hole rest hholes
  obtain ⟨filled, hresolve, -⟩ := bind_eq_ok_iff.mp hfinish
  obtain ⟨hlabels, -⟩ := Draft.resolve_eq_ok_iff.mp hresolve
  rw [hholes] at hlabels
  have hmem : hole ∈ draft.holes.toList := by simp [hholes]
  obtain ⟨before, ins, after, hp, hleaves⟩ := Draft.exists_leaves hdraft hmem
  have hdone : done.foldlM (Draft.fill draft.labels) draft =
      .ok (done.foldl (Draft.patchHole draft.labels.addressOf) draft) :=
    (foldlM_eq_ok_iff (Draft.fill_eq_ok_iff draft.labels)).mpr
      ⟨fun k hk => hlabels k (List.mem_append_left _ hk), rfl⟩
  have hp' : p = ⟨before ++ .instruction ins :: after⟩ := congrArg Program.mk hp
  refine ⟨before, ins, after, _, hp, hleaves, hdone, ?_⟩
  exact Draft.places_of_leaves (hp' ▸ hdraft) hleaves _ done

/-- The second address of this image begins at an odd offset, and is written after the first. -/
theorem Image.listing_partitions_withForwardLabel :
    ∃ image draft, Image.ofProgram .legacy .withForwardLabel = .ok image ∧
      image.listing.map ListingEntry.offset = [0, 5, 13, 21] ∧
      image.listing.flatMap ListingEntry.bytes = image.bytes ∧
      Draft.ofProgram .legacy .withForwardLabel = .ok draft ∧
      ∃ first second filled, draft.holes.toList = [first, second] ∧ second.offset = 17 ∧
        Draft.fill draft.labels draft first = .ok filled ∧
        ∃ before ins after,
          Program.withForwardLabel.declarations = before ++ .instruction ins :: after ∧
          ins.Leaves .legacy before second ∧
          filled.Places 17 (Program.mk before).instructions.length := by
  have himage : Image.ofProgram .legacy .withForwardLabel =
      .ok (Content.image .legacy Program.withForwardLabel.contents) := rfl
  obtain ⟨-, -, -, hbytes, draft, hdraft, hplaces⟩ := Image.listing_partitions_bytes himage
  have hwhole := hdraft
  cases hdraft
  obtain ⟨before, ins, after, filled, hp, hleaves, hfilled, hplace⟩ := hplaces [_] _ [] rfl
  cases hfilled
  exact ⟨_, _, himage, rfl, hbytes, hwhole, _, _, _, rfl, rfl, rfl, before, ins, after, hp, hleaves,
    hplace⟩

end FourVin
