import FourVin.Proofs.Assembler.RoundTrip
import FourVin.Proofs.Image.Addresses
import Mathlib.Data.List.TakeDrop

/-!
The hexadecimal text of an image. It has eight digits for each complete word, and reading its digits
gives these words back byte for byte. What follows the last complete word is lost. How many bytes
these are depends on the length of the whole image, and this only on how many of its instructions
have no operands: each of them adds a byte in the legacy layout. So the aligned layout loses
nothing, and the legacy one may lose up to three bytes of an instruction that has operands.
-/
namespace FourVin

namespace Text

def hexPairs : List Char → List UInt8
  | high :: low :: rest => UInt8.ofNat (ofHexDigits [high, low]) :: hexPairs rest
  | _ => []

/-- The bytes that the hexadecimal digits of a text denote, whatever stands between the digits. -/
def bytesOfHex (text : String) : List UInt8 := hexPairs (text.toList.filter isHexDigit)

def hexDigits : List Char := "0123456789abcdef".toList

theorem digitChar_mem_hexDigits {n : Nat} (h : n < 16) : n.digitChar ∈ hexDigits := by
  have htable : ∀ n < 16, n.digitChar ∈ hexDigits := by decide
  exact htable n h

theorem isHexDigit_of_mem_hexDigits {c : Char} (h : c ∈ hexDigits) : isHexDigit c = true := by
  have htable : hexDigits.all isHexDigit = true := by decide
  exact List.all_eq_true.mp htable c h

theorem hexValue_digitChar {n : Nat} (h : n < 16) : hexValue n.digitChar = n := by
  have htable : ∀ n < 16, hexValue n.digitChar = n := by decide
  exact htable n h

theorem mem_hexDigits_of_mem_hexFixed {width n : Nat} {c : Char} (h : c ∈ hexFixed width n) :
    c ∈ hexDigits := by
  induction width generalizing n with
  | zero => cases h
  | succ width ih =>
    rcases List.mem_append.mp h with hfront | hlast
    · exact ih hfront
    · rw [List.mem_singleton.mp hlast]
      exact digitChar_mem_hexDigits (Nat.mod_lt _ (by decide))

/-- The last two digits are those of the last byte. -/
theorem hexFixed_add_two (width n : Nat) :
    hexFixed (width + 2) n = hexFixed width (n / 256) ++ hexFixed 2 (n % 256) := by
  have hfront : n / 16 / 16 = n / 256 := by omega
  have hhigh : n % 256 / 16 % 16 = n / 16 % 16 := by omega
  have hlow : n % 256 % 16 = n % 16 := by omega
  simp only [hexFixed, List.nil_append, List.append_assoc, hfront, hhigh, hlow]

theorem hexPairs_byte (b : UInt8) (rest : List Char) :
    hexPairs (hexFixed 2 b.toNat ++ rest) = b :: hexPairs rest := by
  have hb := b.toNat_lt
  have hhigh : hexValue (b.toNat / 16 % 16).digitChar = b.toNat / 16 % 16 :=
    hexValue_digitChar (Nat.mod_lt _ (by decide))
  have hlow : hexValue (b.toNat % 16).digitChar = b.toNat % 16 :=
    hexValue_digitChar (Nat.mod_lt _ (by decide))
  have hvalue : 16 * (16 * 0 + b.toNat / 16 % 16) + b.toNat % 16 = b.toNat := by omega
  simp only [hexFixed, List.nil_append, List.cons_append, hexPairs, ofHexDigits, List.foldl_cons,
    List.foldl_nil, hhigh, hlow, hvalue, UInt8.ofNat_toNat]

theorem hexPairs_flatMap (bytes : List UInt8) :
    hexPairs (bytes.flatMap fun b => hexFixed 2 b.toNat) = bytes := by
  induction bytes with
  | nil => rfl
  | cons b rest ih => rw [List.flatMap_cons, hexPairs_byte, ih]

/-- Of texts with blanks between them only the blanks are no digits. -/
theorem filter_intercalate {groups : List (List Char)}
    (h : ∀ g ∈ groups, ∀ c ∈ g, isHexDigit c = true) :
    ([' '].intercalate groups).filter isHexDigit = groups.flatten := by
  induction groups with
  | nil => rfl
  | cons g rest ih =>
    obtain ⟨hg, hrest⟩ := List.forall_mem_cons.mp h
    have hkept : g.filter isHexDigit = g := List.filter_eq_self.mpr hg
    cases rest with
    | nil => simp [hkept]
    | cons other rest =>
      have hblank : [' '].filter isHexDigit = [] := by decide
      rw [List.intercalate_cons_cons, List.filter_append, List.filter_append, hkept, hblank,
        ih hrest, List.append_nil]
      rfl

end Text

namespace Word

/-- The digits of a word are those of its bytes. -/
theorem hexFixed_eight (w : UInt32) :
    Text.hexFixed 8 w.toNat = (toBytes w).flatMap fun b => Text.hexFixed 2 b.toNat := by
  have hw := w.toNat_lt
  have hfirst : w.toNat / 256 / 256 / 256 = w.toNat / 0x1000000 % 256 := by omega
  have hsecond : w.toNat / 256 / 256 % 256 = w.toNat / 0x10000 % 256 := by omega
  rw [Text.hexFixed_add_two 6, Text.hexFixed_add_two 4, Text.hexFixed_add_two 2, hfirst, hsecond]
  simp [toBytes]

/-- The bytes of the complete words at the front of a byte sequence. -/
theorem flatMap_toBytes_ofByteList (bytes : List UInt8) :
    (ofByteList bytes).flatMap toBytes = bytes.take (4 * (bytes.length / 4)) := by
  fun_induction ofByteList bytes with
  | case1 a b c d rest ih =>
    have hlength : 4 * ((a :: b :: c :: d :: rest).length / 4) = 4 * (rest.length / 4) + 4 := by
      simp only [List.length_cons]
      omega
    rw [List.flatMap_cons, ih, toBytes_ofBytes, hlength]
    simp
  | case2 bytes h =>
    rw [Nat.div_eq_of_lt (length_lt_four h)]
    rfl

end Word

namespace Image

/-- The digits of an image are those of the bytes in its complete words. -/
theorem filter_hex (image : Image) :
    image.hex.toList.filter Text.isHexDigit =
      (image.bytes.take (4 * (image.bytes.length / 4))).flatMap fun b =>
        Text.hexFixed 2 b.toNat := by
  have hgroups : ∀ g ∈ (image.words.map Word.hex).map String.toList, ∀ c ∈ g,
      Text.isHexDigit c = true := by
    intro g hg c hc
    obtain ⟨text, htext, rfl⟩ := List.mem_map.mp hg
    obtain ⟨w, -, rfl⟩ := List.mem_map.mp htext
    rw [Word.hex, String.toList_ofList] at hc
    exact Text.isHexDigit_of_mem_hexDigits (Text.mem_hexDigits_of_mem_hexFixed hc)
  have hdigits : ((image.words.map Word.hex).map String.toList).flatten =
      (image.words.flatMap Word.toBytes).flatMap fun b => Text.hexFixed 2 b.toNat := by
    rw [List.flatMap_assoc, List.map_map, ← List.flatMap_def]
    apply List.flatMap_congr
    intro w _
    rw [Function.comp_apply, Word.hex, String.toList_ofList, Word.hexFixed_eight]
  rw [hex, String.toList_intercalate]
  exact (Text.filter_intercalate hgroups).trans
    (hdigits.trans (by rw [words, Word.flatMap_toBytes_ofByteList]))

/-- Reading the text of an image gives the bytes of its complete words. -/
theorem bytesOfHex_hex (image : Image) :
    Text.bytesOfHex image.hex = image.bytes.take (4 * (image.bytes.length / 4)) := by
  rw [Text.bytesOfHex, filter_hex, Text.hexPairs_flatMap]

end Image

namespace Assembler

/-- The image of a source ends off word alignment by what its instructions without operands add. -/
theorem length_bytes_mod_four {a : Assembler} {source : String} {image : Image}
    (h : a.assemble source = .ok image) :
    ∃ p, a.expand source = .ok p ∧
      image.bytes.length % 4 = a.layout.excess (p.instructions.countP Instruction.isNullary) := by
  obtain ⟨q, hexpand, -, hcomplete, rfl⟩ := exists_expand_of_assemble h
  have hencodable : ∀ c ∈ q.contents, c.Encodable :=
    fun c hc => (hcomplete.wellFormed.admitted c hc).encodable
  have hlength : (Content.image a.layout q.contents).bytes.length =
      Content.extent a.layout q.contents := Content.length_flatMap_bytes a.layout _ hencodable
  have hcount : q.contents.countP Content.isNullary =
      q.instructions.countP Instruction.isNullary :=
    Content.countP_isNullary_declarations q.declarations
  exact ⟨q, hexpand, by rw [hlength, Content.extent_mod_four, hcount]⟩

/-- The text of an image is a group of eight digits for each complete word, with single blanks
between the groups, and reads back as the bytes of these words. Of the image of a source it loses
the bytes that instructions without operands add beyond whole words. -/
theorem hex_keeps_complete_words :
    (∀ image : Image,
      (∃ groups : List String, image.hex = " ".intercalate groups ∧
        groups.length = image.bytes.length / 4 ∧
        ∀ g ∈ groups, g.length = 8 ∧ ∀ c ∈ g.toList, c ∈ Text.hexDigits) ∧
      Text.bytesOfHex image.hex = image.bytes.take (4 * (image.bytes.length / 4))) ∧
    ∀ (a : Assembler) (source : String) (image : Image), a.assemble source = .ok image →
      ∃ p, a.expand source = .ok p ∧
        (∃ lost, image.bytes = Text.bytesOfHex image.hex ++ lost ∧
          lost.length = a.layout.excess (p.instructions.countP Instruction.isNullary)) ∧
        (Text.bytesOfHex image.hex = image.bytes ↔
          a.layout = .aligned ∨ p.instructions.countP Instruction.isNullary % 4 = 0) := by
  constructor
  · intro image
    refine ⟨⟨image.words.map Word.hex, rfl, ?_, ?_⟩, image.bytesOfHex_hex⟩
    · rw [List.length_map, Image.words, Word.length_ofByteList]
    · intro g hg
      obtain ⟨w, -, rfl⟩ := List.mem_map.mp hg
      rw [Word.hex, String.length_ofList, String.toList_ofList]
      exact ⟨Text.length_hexFixed 8 w.toNat, fun c => Text.mem_hexDigits_of_mem_hexFixed⟩
  · intro a source image h
    obtain ⟨p, hexpand, hexcess⟩ := length_bytes_mod_four h
    refine ⟨p, hexpand, ?_, ?_⟩
    · rw [image.bytesOfHex_hex]
      refine ⟨_, (List.take_append_drop _ image.bytes).symm, ?_⟩
      rw [List.length_drop]
      omega
    · rw [image.bytesOfHex_hex, List.take_eq_self_iff, ← Layout.excess_eq_zero_iff, ← hexcess]
      omega

/-- The sample has two instructions without operands, and loses two bytes. -/
theorem hex_keeps_complete_words_sample :
    ∃ image p, Assembler.default.assemble sample = .ok image ∧
      Assembler.default.expand sample = .ok p ∧ image.bytes.length = 78 ∧
      (Text.bytesOfHex image.hex).length = 76 ∧
      p.instructions.countP Instruction.isNullary % 4 = 2 ∧
      Text.bytesOfHex image.hex ≠ image.bytes := by
  obtain ⟨image, himage, hlength, -⟩ := exists_assemble_sample
  obtain ⟨p, hexpand, ⟨lost, hbytes, hlost⟩, hwhole⟩ :=
    hex_keeps_complete_words.2 _ sample image himage
  have hread := congrArg List.length (hex_keeps_complete_words.1 image).2
  rw [hlength, List.length_take, hlength] at hread
  have hsum := congrArg List.length hbytes
  rw [List.length_append, hlost, hlength, hread] at hsum
  have hcount : p.instructions.countP Instruction.isNullary % 4 = 2 := by
    simp only [Assembler.default, Layout.excess] at hsum
    omega
  refine ⟨image, p, himage, hexpand, hlength, hread, hcount, ?_⟩
  intro heq
  rcases hwhole.mp heq with hlayout | hzero
  · cases hlayout
  · omega

end Assembler

end FourVin
