import FourVin.Proofs.Token.Lexing

/-!
The forms of tokens, said without scanning. `Rule.Describes` gives the texts of each rule. A rule
takes from the front of an input the longest text that it describes, so that it takes nothing
exactly where none of its texts stands. `Rule.holds` gives the characters in the texts of a rule, so
that only the rule of line feeds describes a text with a line feed in it.
-/
namespace FourVin.Rule

open Text

inductive Describes : Rule → List Char → Prop
  | newlines {text : List Char} : text ≠ [] → (∀ c ∈ text, c = '\n') → Describes newlines text
  | word {c : Char} {cs : List Char} : c.isAlpha = true → (∀ d ∈ cs, isWordChar d = true) →
      Describes word (c :: cs)
  | register {letters : List Char} : letters ≠ [] → letters.length ≤ 3 →
      (∀ c ∈ letters, c.isAlpha = true) → Describes register ('%' :: letters)
  | float {whole fraction : List Char} : whole ≠ [] ∨ fraction ≠ [] →
      (∀ c ∈ whole, isDecimal c = true) → (∀ c ∈ fraction, isDecimal c = true) →
      Describes float (whole ++ '.' :: fraction)
  | hex {digits : List Char} : digits ≠ [] → (∀ c ∈ digits, isHexDigit c = true) →
      Describes hex ('0' :: 'x' :: digits)
  | integer {digits : List Char} : digits ≠ [] → (∀ c ∈ digits, isDecimal c = true) →
      Describes integer digits
  | mark {c : Char} : (markOf? c).isSome = true → Describes mark [c]

theorem Describes.ne_nil {rule : Rule} {text : List Char} (h : rule.Describes text) :
    text ≠ [] := by
  cases h with
  | newlines hne _ => exact hne
  | integer hne _ => exact hne
  | float _ _ _ => simp
  | _ => exact List.cons_ne_nil _ _

theorem mem_takeWhile {p : Char → Bool} {text : List Char} :
    ∀ c ∈ text.takeWhile p, p c = true := List.all_eq_true.mp List.all_takeWhile

/-- What a rule takes is a text that it describes. -/
theorem lexeme_eq_nil_or_describes (rule : Rule) (input : List Char) :
    rule.lexeme input = [] ∨ rule.Describes (rule.lexeme input) := by
  cases rule with
  | newlines =>
    by_cases h : lexeme newlines input = []
    · exact .inl h
    · exact .inr (.newlines h fun c hc => by simpa using mem_takeWhile c hc)
  | word =>
    simp only [lexeme, wordLexeme]
    split
    · exact .inl rfl
    · split
      · next hc => exact .inr (.word hc mem_takeWhile)
      · exact .inl rfl
  | register =>
    simp only [lexeme, registerLexeme]
    split
    · next rest =>
      split
      · exact .inl rfl
      · next hne =>
        refine .inr (.register hne (List.length_take_le ..) ?_)
        intro c hc
        exact mem_takeWhile c (List.mem_of_mem_take hc)
    · exact .inl rfl
  | float =>
    simp only [lexeme, floatLexeme]
    split
    · split
      · exact .inl rfl
      · next hparts =>
        refine .inr (.float ?_ mem_takeWhile mem_takeWhile)
        simpa only [Bool.and_eq_true, List.isEmpty_iff, not_and_or] using hparts
    · exact .inl rfl
  | hex =>
    simp only [lexeme, hexLexeme]
    split
    · split
      · exact .inl rfl
      · next hne => exact .inr (.hex hne mem_takeWhile)
    · exact .inl rfl
  | integer =>
    by_cases h : lexeme integer input = []
    · exact .inl h
    · exact .inr (.integer h mem_takeWhile)
  | mark =>
    simp only [lexeme, markLexeme]
    split
    · exact .inl rfl
    · split
      · next hc => exact .inr (.mark hc)
      · exact .inl rfl

theorem prefix_takeWhile_append {p : Char → Bool} {text : List Char} (rest : List Char)
    (h : ∀ c ∈ text, p c = true) : text <+: (text ++ rest).takeWhile p := by
  rw [List.takeWhile_append_of_pos h]
  exact List.prefix_append _ _

/-- A rule takes no less than any text that it describes and that stands at the front. -/
theorem Describes.prefix_lexeme {rule : Rule} {text : List Char} (h : rule.Describes text)
    (rest : List Char) : text <+: rule.lexeme (text ++ rest) := by
  cases h with
  | newlines _ htext =>
    exact prefix_takeWhile_append rest fun c hc => by simpa using htext c hc
  | word hc hcs =>
    simp only [lexeme, wordLexeme, List.cons_append, hc, if_true]
    exact List.cons_prefix_cons.mpr ⟨rfl, prefix_takeWhile_append rest hcs⟩
  | @register letters hne hlength hletters =>
    have hprefix : letters <+: ((letters ++ rest).takeWhile Char.isAlpha).take 3 :=
      List.prefix_take_iff.mpr ⟨prefix_takeWhile_append rest hletters, hlength⟩
    simp only [lexeme, registerLexeme, List.cons_append]
    split
    · next hnil =>
      rw [hnil] at hprefix
      exact absurd (List.prefix_nil.mp hprefix) hne
    · exact List.cons_prefix_cons.mpr ⟨rfl, hprefix⟩
  | @float whole fraction hparts hwhole hfraction =>
    have hpoint : ∀ c ∈ ('.' :: (fraction ++ rest)).head?, isDecimal c = false := by
      intro c hc
      obtain rfl : '.' = c := by simpa using hc
      decide
    have hprefix : fraction <+: (fraction ++ rest).takeWhile isDecimal :=
      prefix_takeWhile_append rest hfraction
    simp only [lexeme, floatLexeme, List.append_assoc, List.cons_append,
      takeWhile_append_stop hwhole hpoint, dropWhile_append_stop hwhole hpoint]
    split
    · next hempty =>
      simp only [Bool.and_eq_true, List.isEmpty_iff] at hempty
      rw [hempty.2] at hprefix
      rcases hparts with hne | hne
      · exact absurd hempty.1 hne
      · exact absurd (List.prefix_nil.mp hprefix) hne
    · exact (List.prefix_append_right_inj _).mpr (List.cons_prefix_cons.mpr ⟨rfl, hprefix⟩)
  | @hex digits hne hdigits =>
    have hprefix : digits <+: (digits ++ rest).takeWhile isHexDigit :=
      prefix_takeWhile_append rest hdigits
    simp only [lexeme, hexLexeme, List.cons_append]
    split
    · next hnil =>
      rw [hnil] at hprefix
      exact absurd (List.prefix_nil.mp hprefix) hne
    · exact List.cons_prefix_cons.mpr ⟨rfl, List.cons_prefix_cons.mpr ⟨rfl, hprefix⟩⟩
  | integer _ hdigits => exact prefix_takeWhile_append rest hdigits
  | mark hc =>
    simp only [lexeme, markLexeme, List.cons_append, hc, if_true]
    exact List.prefix_rfl

/-- A rule takes nothing where none of its texts stands at the front. -/
theorem lexeme_eq_nil_iff {rule : Rule} {input : List Char} :
    rule.lexeme input = [] ↔ ∀ text, text <+: input → ¬ rule.Describes text := by
  constructor
  · rintro hnil text ⟨rest, rfl⟩ hdescribes
    have hprefix := hdescribes.prefix_lexeme rest
    rw [hnil] at hprefix
    exact hdescribes.ne_nil (List.prefix_nil.mp hprefix)
  · intro hnone
    rcases lexeme_eq_nil_or_describes rule input with hnil | hdescribes
    · exact hnil
    · exact absurd hdescribes (hnone _ (lexeme_isPrefix rule input))

theorem describes_of_first? {input : List Char} {rule : Rule} (h : first? input = some rule) :
    rule.Describes (rule.lexeme input) :=
  (lexeme_eq_nil_or_describes rule input).resolve_left (lexeme_ne_nil_of_first? h)

/-- Where no rule applies, no text of a token stands at the front. -/
theorem not_describes_of_first? {input text : List Char} {rule : Rule} (h : first? input = none)
    (htext : text <+: input) : ¬ rule.Describes text := by
  have hmem : rule ∈ all := by cases rule <;> decide
  have happlies := List.find?_eq_none.mp h rule hmem
  exact lexeme_eq_nil_iff.mp (by simpa [applies] using happlies) text htext

def holds : Rule → Char → Bool
  | newlines, c => c = '\n'
  | word, c => isWordChar c
  | register, c => c = '%' || c.isAlpha
  | float, c => isDecimal c || c = '.'
  | hex, c => c = 'x' || isHexDigit c
  | integer, c => isDecimal c
  | mark, c => (markOf? c).isSome

theorem Describes.holds_of_mem {rule : Rule} {text : List Char} (h : rule.Describes text) :
    ∀ c ∈ text, rule.holds c = true := by
  cases h with
  | newlines _ htext => exact fun c hc => by simpa [holds] using htext c hc
  | word hc hcs =>
    refine List.forall_mem_cons.mpr ⟨?_, hcs⟩
    simp [holds, isWordChar, Char.isAlphanum, hc]
  | register _ _ hletters =>
    refine List.forall_mem_cons.mpr ⟨by simp [holds], ?_⟩
    exact fun c hc => by simp [holds, hletters c hc]
  | float _ hwhole hfraction =>
    refine List.forall_mem_append.mpr ⟨?_, List.forall_mem_cons.mpr ⟨by simp [holds], ?_⟩⟩
    · exact fun c hc => by simp [holds, hwhole c hc]
    · exact fun c hc => by simp [holds, hfraction c hc]
  | hex _ hdigits =>
    refine List.forall_mem_cons.mpr ⟨by decide, List.forall_mem_cons.mpr ⟨by simp [holds], ?_⟩⟩
    exact fun c hc => by simp [holds, hdigits c hc]
  | integer _ hdigits => exact hdigits
  | mark hc => exact List.forall_mem_singleton.mpr hc

theorem Describes.not_mem {rule : Rule} {text : List Char} {c : Char} (h : rule.Describes text)
    (hc : rule.holds c = false) : c ∉ text := by
  intro hmem
  rw [h.holds_of_mem c hmem] at hc
  cases hc

/-- Only line feeds are a token with a line feed in it. -/
theorem Describes.newline_not_mem {rule : Rule} {text : List Char} (h : rule.Describes text)
    (hrule : rule ≠ .newlines) : '\n' ∉ text := by
  apply h.not_mem
  cases rule with
  | newlines => exact absurd rfl hrule
  | _ => decide

end FourVin.Rule
