import FourVin.Proofs.Binary.Narrowing
import FourVin.Proofs.Program.Soundness
import FourVin.Proofs.Token.LongestMatch

/-!
Float literals of ASCII digits and their exact values. Wherever a literal stands, a scan takes the
whole of it, and whether it becomes a token or a fault depends on its exact value alone: a literal
is out of range from `2 ^ 128 - 2 ^ 103 - 2 ^ 74` on. This is below the number from which singles
overflow, since the double is rounded first.
-/
namespace FourVin

open Text

/-- Digits around a point, with at least one of them on either side. -/
structure FloatLiteral where
  whole : List Char
  fraction : List Char
  nonempty : whole ≠ [] ∨ fraction ≠ []
  isDigit_whole : ∀ c ∈ whole, c.isDigit = true
  isDigit_fraction : ∀ c ∈ fraction, c.isDigit = true

namespace FloatLiteral

variable (l : FloatLiteral)

def text : List Char := l.whole ++ '.' :: l.fraction

def value : ℚ :=
  Nat.ofDigitChars 10 l.whole 0 + Nat.ofDigitChars 10 l.fraction 0 / 10 ^ l.fraction.length

def double : Double := .ofDecimal (.ofText l.text)

theorem point_not_mem_whole : '.' ∉ l.whole := by
  intro hmem
  exact absurd (l.isDigit_whole '.' hmem) (by decide)

/-- Reading the digits loses nothing. -/
theorem value_ofText : (Decimal.ofText l.text).value = l.value := by
  have hscale : ((Nat.pow 10 l.fraction.length : Nat) : ℚ) = 10 ^ l.fraction.length :=
    Nat.cast_pow 10 l.fraction.length
  have hpos : (10 : ℚ) ^ l.fraction.length ≠ 0 := by positivity
  rw [text, Decimal.ofText_point _ _ l.point_not_mem_whole, Nat.ofDigitChars_append,
    Nat.ofDigitChars_eq_ofDigitChars_zero, Decimal.value, Decimal.scale, hscale, Nat.cast_add,
    Nat.cast_mul, Nat.cast_pow, Nat.cast_ofNat, add_div, mul_div_cancel_left₀ _ hpos, value]

theorem describes_text : Rule.Describes .float l.text :=
  .float l.nonempty (fun c hc => isDecimal_of_isDigit (l.isDigit_whole c hc))
    fun c hc => isDecimal_of_isDigit (l.isDigit_fraction c hc)

def Stops (rest : List Char) : Prop := ∀ c ∈ rest.head?, isDecimal c = false

theorem stops_newline : Stops ['\n'] :=
  Token.Delimits.not_decimal (by simp [Token.Delimits])

theorem lexeme_text {rest : List Char} (hrest : Stops rest) :
    Rule.lexeme .float (l.text ++ rest) = l.text :=
  Token.lexeme_float l.nonempty (fun c hc => isDecimal_of_isDigit (l.isDigit_whole c hc))
    (fun c hc => isDecimal_of_isDigit (l.isDigit_fraction c hc)) hrest

theorem kind_text : Rule.kind .float l.text =
    if l.double.overflowsSingle then .error (.floatOverflow (String.ofList l.text))
    else .ok (.float l.double) :=
  Token.kind_float l.isDigit_whole l.isDigit_fraction rfl

theorem lexes_text {rest : List Char} (hrange : l.double.overflowsSingle = false)
    (hrest : Stops rest) : Token.Lexes (.float l.double) l.text rest := by
  refine ⟨.float, Rule.first?_float rest l.describes_text, l.lexeme_text hrest, ?_⟩
  rw [kind_text, hrange]
  rfl

/-- A literal is out of range from a certain number on. -/
theorem overflowsSingle_iff :
    l.double.overflowsSingle = true ↔ 2 ^ 128 - 2 ^ 103 - 2 ^ 74 ≤ l.value := by
  rw [double, Double.overflowsSingle_ofDecimal_iff_le, value_ofText]

/-- How a scan goes on where a literal stands behind the gap. -/
theorem scanFrom_text (file : String) (p : Position) {input rest : List Char}
    (hinput : input.drop (Token.gap input).length = l.text ++ rest) (hrest : Stops rest) :
    Token.scanFrom file p input =
      if l.value < 2 ^ 128 - 2 ^ 103 - 2 ^ 74 then
        let start := p.advance (Token.gap input)
        let behind := Token.scanFrom file (start.advance l.text) rest
        ⟨⟨.float l.double, String.ofList l.text, ⟨file, start⟩⟩ :: behind.tokens, behind.failure⟩
      else
        ⟨[], some ⟨⟨file, p.advance (Token.gap input)⟩,
          .floatOverflow (String.ofList l.text)⟩⟩ := by
  rw [Token.scanFrom_of_first? file p hinput (Rule.first?_float rest l.describes_text),
    l.lexeme_text hrest, kind_text]
  have hiff := l.overflowsSingle_iff
  by_cases hrange : l.value < 2 ^ 128 - 2 ^ 103 - 2 ^ 74
  · have hfits : l.double.overflowsSingle = false := by
      rw [← Bool.not_eq_true, hiff]
      exact not_le.mpr hrange
    simp only [hfits, hrange, Bool.false_eq_true, if_false, if_true, List.drop_left]
  · rw [hiff.mpr (not_lt.mp hrange), if_neg hrange]
    rfl

def Accepted : Prop :=
  ∃ file tokens, Token.ofSource file (String.ofList l.text) = .ok tokens

theorem accepted_iff {l : FloatLiteral} : l.Accepted ↔ l.value < 2 ^ 128 - 2 ^ 103 - 2 ^ 74 := by
  have hgap : Token.gap l.text = [] := by
    have hfirst := Rule.first?_float [] l.describes_text
    rw [List.append_nil] at hfirst
    exact Token.gap_eq_nil_of_first? hfirst
  have hfront : l.text.drop (Token.gap l.text).length = l.text ++ [] := by simp [hgap]
  have hscan : ∀ file, Scan.ofSource file (String.ofList l.text) =
      if l.value < 2 ^ 128 - 2 ^ 103 - 2 ^ 74 then
        ⟨[⟨.float l.double, String.ofList l.text, ⟨file, .start⟩⟩], none⟩
      else ⟨[], some ⟨⟨file, .start⟩, .floatOverflow (String.ofList l.text)⟩⟩ := by
    intro file
    rw [Scan.ofSource, String.toList_ofList, l.scanFrom_text file .start hfront (by simp [Stops]),
      hgap]
    simp only [Token.scanFrom_nil, Position.advance_nil]
  constructor
  · rintro ⟨file, tokens, htokens⟩
    by_contra hrange
    rw [Token.ofSource, hscan, if_neg hrange] at htokens
    cases htokens
  · intro hrange
    refine ⟨"", [⟨.float l.double, String.ofList l.text, ⟨"", .start⟩⟩], ?_⟩
    rw [Token.ofSource, hscan, if_pos hrange]

theorem Accepted.inRange {l : FloatLiteral} (h : l.Accepted) :
    l.double.overflowsSingle = false := by
  rw [← Bool.not_eq_true, overflowsSingle_iff, not_le]
  exact accepted_iff.mp h

/-- The literals in range are those below one number, wherever they stand; the others are faults.
Every float token is finite in single precision. -/
theorem scan_accepts_below_limit (file : String) :
    (∀ (p : Position) (l : FloatLiteral) (input rest : List Char),
      input.drop (Token.gap input).length = l.text ++ rest → Stops rest →
      ((∃ x, (Token.scanFrom file p input).tokens.head? =
          some ⟨.float x, String.ofList l.text, ⟨file, p.advance (Token.gap input)⟩⟩) ↔
        l.value < 2 ^ 128 - 2 ^ 103 - 2 ^ 74) ∧
      (Token.scanFrom file p input =
          ⟨[], some ⟨⟨file, p.advance (Token.gap input)⟩,
            .floatOverflow (String.ofList l.text)⟩⟩ ↔
        2 ^ 128 - 2 ^ 103 - 2 ^ 74 ≤ l.value)) ∧
    ∀ source, ∀ t ∈ (Scan.ofSource file source).tokens, ∀ x, t.kind = .float x →
      (Single.mk x.toSingle).isFinite = true := by
  refine ⟨?_, ?_⟩
  · intro p l input rest hinput hrest
    rw [l.scanFrom_text file p hinput hrest]
    by_cases hrange : l.value < 2 ^ 128 - 2 ^ 103 - 2 ^ 74
    · rw [if_pos hrange]
      exact ⟨iff_of_true ⟨l.double, rfl⟩ hrange, iff_of_false (by simp) (not_le.mpr hrange)⟩
    · rw [if_neg hrange]
      exact ⟨iff_of_false (by simp) hrange, iff_of_true rfl (not_lt.mp hrange)⟩
  · intro source t ht x hx
    have hsound := (Token.sound_scanFrom file .start source.toList).1 t ht
    have hdenotable : t.kind.Spellable := hsound.2
    rw [hx] at hdenotable
    exact Double.Denotable.isFinite_toSingle hdenotable

def largest : FloatLiteral where
  whole := "340282356779733642748073463979561713663".toList
  fraction := "9".toList
  nonempty := by decide
  isDigit_whole := List.all_eq_true.mp (by decide)
  isDigit_fraction := List.all_eq_true.mp (by decide)

def tooLarge : FloatLiteral where
  whole := "340282356779733642748073463979561713664".toList
  fraction := []
  nonempty := by decide
  isDigit_whole := List.all_eq_true.mp (by decide)
  isDigit_fraction := List.all_eq_true.mp (by decide)

theorem value_largest : largest.value = 2 ^ 128 - 2 ^ 103 - 2 ^ 74 - 1 / 10 := by
  have hwhole : Nat.ofDigitChars 10 largest.whole 0 =
      340282356779733642748073463979561713663 := by decide +kernel
  have hfraction : Nat.ofDigitChars 10 largest.fraction 0 = 9 := by decide
  have hlength : largest.fraction.length = 1 := by decide
  rw [value, hwhole, hfraction, hlength]
  norm_num

theorem value_tooLarge : tooLarge.value = 2 ^ 128 - 2 ^ 103 - 2 ^ 74 := by
  have hwhole : Nat.ofDigitChars 10 tooLarge.whole 0 =
      340282356779733642748073463979561713664 := by decide +kernel
  have hfraction : Nat.ofDigitChars 10 tooLarge.fraction 0 = 0 := by decide
  rw [value, hwhole, hfraction]
  norm_num

theorem scan_accepts_below_limit_boundary :
    (∃ t ∈ (Scan.ofSource "a.asm" (String.ofList largest.text)).tokens,
      ∃ x, t.kind = .float x ∧ (Single.mk x.toSingle).isFinite = true) ∧
    Token.scanFrom "a.asm" .start (' ' :: tooLarge.text) =
      ⟨[], some ⟨⟨"a.asm", ⟨1, 2⟩⟩, .floatOverflow (String.ofList tooLarge.text)⟩⟩ := by
  obtain ⟨hscan, hfinite⟩ := scan_accepts_below_limit "a.asm"
  have hstops : Stops [] := by simp [Stops]
  have hgap : Token.gap largest.text = [] := by decide
  have hblank : Token.gap (' ' :: tooLarge.text) = [' '] := by decide
  constructor
  · obtain ⟨x, hx⟩ := (hscan .start largest largest.text [] (by simp [hgap]) hstops).1.mpr
      (by rw [value_largest]; norm_num)
    have hmem : _ ∈ (Scan.ofSource "a.asm" (String.ofList largest.text)).tokens :=
      List.mem_of_mem_head? (by rw [Scan.ofSource, String.toList_ofList]; exact hx)
    exact ⟨_, hmem, x, rfl, hfinite _ _ hmem x rfl⟩
  · rw [(hscan .start tooLarge (' ' :: tooLarge.text) [] (by simp [hblank]) hstops).2.mpr
      value_tooLarge.ge, hblank]
    rfl

end FloatLiteral
end FourVin
