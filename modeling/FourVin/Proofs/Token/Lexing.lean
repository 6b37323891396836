import FourVin.Token.Scan
import Mathlib.Tactic.ByContra

/-!
How single tokens are scanned. `Token.Lexes kind text rest` says that the rules take `text` from the
front of `text ++ rest` and read it as `kind`; a scan then goes on behind the text. A rule can begin
only at certain characters, which settles most comparisons between rules. What is left are the
three rules of numbers, where the character behind the digits decides.
-/
namespace FourVin

open Text

namespace Rule

theorem takeWhile_append_stop {p : Char → Bool} {text rest : List Char}
    (htext : ∀ c ∈ text, p c = true) (hrest : ∀ c ∈ rest.head?, p c = false) :
    (text ++ rest).takeWhile p = text := by
  rw [List.takeWhile_append_of_pos htext]
  cases rest with
  | nil => simp
  | cons c rest => simp [hrest c (by simp)]

theorem dropWhile_append_stop {p : Char → Bool} {text rest : List Char}
    (htext : ∀ c ∈ text, p c = true) (hrest : ∀ c ∈ rest.head?, p c = false) :
    (text ++ rest).dropWhile p = rest := by
  rw [List.dropWhile_append_of_pos htext]
  cases rest with
  | nil => rfl
  | cons c rest => simp [hrest c (by simp)]

def opens : Rule → Char → Bool
  | newlines, c => c = '\n'
  | word, c => c.isAlpha
  | register, c => c = '%'
  | float, c => isDecimal c || c = '.'
  | hex, c => c = '0'
  | integer, c => isDecimal c
  | mark, c => (markOf? c).isSome

theorem lexeme_eq_nil_of_opens {rule : Rule} {c : Char} (rest : List Char)
    (h : rule.opens c = false) : rule.lexeme (c :: rest) = [] := by
  cases rule with
  | newlines =>
    have hc : c ≠ '\n' := by simpa [opens] using h
    simp [lexeme, hc]
  | word =>
    have hc : c.isAlpha = false := h
    simp [lexeme, wordLexeme, hc]
  | register =>
    have hc : c ≠ '%' := by simpa [opens] using h
    simp only [lexeme, registerLexeme]
    split
    · next heq =>
      cases heq
      contradiction
    · rfl
  | float =>
    have hc : isDecimal c = false ∧ c ≠ '.' := by simpa [opens] using h
    simp only [lexeme, floatLexeme, List.dropWhile_cons, hc.1]
    split
    · next heq =>
      cases heq
      exact absurd rfl hc.2
    · rfl
  | hex =>
    have hc : c ≠ '0' := by simpa [opens] using h
    simp only [lexeme, hexLexeme]
    split
    · next heq =>
      cases heq
      contradiction
    · rfl
  | integer =>
    have hc : isDecimal c = false := h
    simp [lexeme, hc]
  | mark =>
    have hc : markOf? c = none := by simpa [opens] using h
    simp [lexeme, markLexeme, hc]

/-- No rule of a list opens with a character of another. The test is boolean because instances that
decide propositions about characters may run through all of them. -/
def noneOpens (rules : List Rule) (chars : List Char) : Bool :=
  chars.all fun c => rules.all fun rule => !rule.opens c

theorem opens_eq_false {rules : List Rule} {chars : List Char}
    (h : noneOpens rules chars = true) {c : Char} (hc : c ∈ chars) :
    ∀ rule ∈ rules, rule.opens c = false := by
  intro rule hrule
  have hrules := List.all_eq_true.mp h c hc
  simpa using List.all_eq_true.mp hrules rule hrule

def before (rule : Rule) : List Rule := all.takeWhile (· ≠ rule)

theorem first?_eq_some {rule : Rule} {input : List Char} (happlies : rule.lexeme input ≠ [])
    (hbefore : ∀ r ∈ rule.before, r.lexeme input = []) : first? input = some rule := by
  rw [first?, List.find?_eq_some_iff_append]
  refine ⟨by simpa [applies] using happlies, rule.before, (all.dropWhile (· ≠ rule)).tail, ?_, ?_⟩
  · cases rule <;> rfl
  · intro r hr
    simp [applies, hbefore r hr]

theorem first?_eq_none_of_opens {c : Char} (rest : List Char)
    (h : ∀ rule ∈ all, rule.opens c = false) : first? (c :: rest) = none := by
  rw [first?, List.find?_eq_none]
  intro rule hrule
  simp [applies, lexeme_eq_nil_of_opens rest (h rule hrule)]

theorem hexLexeme_eq_nil {input : List Char} (h : input.tail.head? ≠ some 'x') :
    hexLexeme input = [] := by
  unfold hexLexeme
  split
  · exact absurd rfl h
  · rfl

theorem floatLexeme_eq_nil {input : List Char} (h : (input.dropWhile isDecimal).head? ≠ some '.') :
    floatLexeme input = [] := by
  unfold floatLexeme
  dsimp only
  split
  · next heq => simp [heq] at h
  · rfl

/-- The marks are four characters. -/
theorem mem_marks {c : Char} (h : (markOf? c).isSome = true) : c ∈ [',', ';', ':', '$'] := by
  by_contra hc
  simp only [List.mem_cons, List.not_mem_nil, or_false, not_or] at hc
  simp [markOf?, hc] at h

end Rule

namespace Token

/-- In front of `rest`, the first rule that applies takes `text` and reads it as `kind`. -/
def Lexes (kind : Kind) (text rest : List Char) : Prop :=
  ∃ rule, Rule.first? (text ++ rest) = some rule ∧ rule.lexeme (text ++ rest) = text ∧
    rule.kind text = .ok kind

theorem gap_eq_nil_of_first? {input : List Char} {rule : Rule}
    (h : Rule.first? input = some rule) : gap input = [] := by
  cases input with
  | nil => rfl
  | cons c rest =>
    have hc : c ∉ [' ', '\t', '\r', '/'] := by
      intro hc
      have hnone : Rule.noneOpens Rule.all [' ', '\t', '\r', '/'] = true := by decide
      rw [Rule.first?_eq_none_of_opens rest (Rule.opens_eq_false hnone hc)] at h
      cases h
    simp only [List.mem_cons, List.not_mem_nil, or_false, not_or] at hc
    obtain ⟨hspace, htab, hreturn, hslash⟩ := hc
    have hblank : isBlank c = false := by simp [isBlank, hspace, htab, hreturn]
    have hcomment : comment (c :: rest) = [] := by
      unfold comment
      split
      · next heq =>
        cases heq
        exact absurd rfl hslash
      · rfl
    simp [gap, hblank, hcomment]

/-- One step of a scan. -/
theorem scanFrom_eq (file : String) (p : Position) (input : List Char) :
    scanFrom file p input =
      match input.drop (gap input).length with
      | [] => ⟨[], none⟩
      | c :: rest =>
        match Rule.first? (c :: rest) with
        | none => ⟨[], some ⟨⟨file, p.advance (gap input)⟩, .unexpectedCharacter c⟩⟩
        | some rule =>
          match rule.kind (rule.lexeme (c :: rest)) with
          | .error cause => ⟨[], some ⟨⟨file, p.advance (gap input)⟩, cause⟩⟩
          | .ok kind =>
            let text := rule.lexeme (c :: rest)
            let behind := scanFrom file ((p.advance (gap input)).advance text)
              ((c :: rest).drop text.length)
            ⟨⟨kind, String.ofList text, ⟨file, p.advance (gap input)⟩⟩ :: behind.tokens,
              behind.failure⟩ := by
  conv => lhs; rw [scanFrom]
  split
  · next hfront => rw [hfront]
  · next c rest hfront =>
    split
    · next hrule => simp only [hfront, hrule]
    · next rule hrule =>
      cases hkind : rule.kind (rule.lexeme (c :: rest)) with
      | error cause => simp only [hfront, hrule, hkind]
      | ok kind => simp only [hfront, hrule, hkind]

/-- Behind the gap, the first rule that applies decides how a scan goes on. -/
theorem scanFrom_of_first? (file : String) (p : Position) {input front : List Char} {rule : Rule}
    (hfront : input.drop (gap input).length = front) (hrule : Rule.first? front = some rule) :
    scanFrom file p input =
      match rule.kind (rule.lexeme front) with
      | .error cause => ⟨[], some ⟨⟨file, p.advance (gap input)⟩, cause⟩⟩
      | .ok kind =>
        let text := rule.lexeme front
        let behind := scanFrom file ((p.advance (gap input)).advance text) (front.drop text.length)
        ⟨⟨kind, String.ofList text, ⟨file, p.advance (gap input)⟩⟩ :: behind.tokens,
          behind.failure⟩ := by
  rw [scanFrom_eq, hfront]
  cases front with
  | nil => cases hrule
  | cons c rest => simp only [hrule]

theorem scanFrom_of_lexes (file : String) (p : Position) {kind : Kind} {text rest : List Char}
    (h : Lexes kind text rest) :
    scanFrom file p (text ++ rest) =
      ⟨⟨kind, String.ofList text, ⟨file, p⟩⟩ :: (scanFrom file (p.advance text) rest).tokens,
        (scanFrom file (p.advance text) rest).failure⟩ := by
  obtain ⟨rule, hfirst, hlexeme, hkind⟩ := h
  have hgap := gap_eq_nil_of_first? hfirst
  have hfront : (text ++ rest).drop (gap (text ++ rest)).length = text ++ rest := by
    rw [hgap, List.length_nil, List.drop_zero]
  rw [scanFrom_of_first? file p hfront hfirst]
  simp only [hlexeme, hkind, hgap, Position.advance_nil, List.drop_left]

theorem scanFrom_blank (file : String) (p : Position) {c : Char} (rest : List Char)
    (h : isBlank c = true) : scanFrom file p (c :: rest) = scanFrom file (p.step c) rest := by
  have hgap : gap (c :: rest) = c :: gap rest := by simp [gap, h]
  rw [scanFrom_eq, scanFrom_eq file (p.step c), hgap]
  rfl

theorem scanFrom_nil (file : String) (p : Position) : scanFrom file p [] = ⟨[], none⟩ := by
  rw [scanFrom_eq]
  rfl

/-- What may stand behind a word or a number in a written form. -/
def Delimits (rest : List Char) : Prop := ∀ c ∈ rest.head?, c ∈ [' ', ',', ':', '\n']

theorem Delimits.not {rest : List Char} (h : Delimits rest) {p : Char → Bool}
    (hp : [' ', ',', ':', '\n'].all (fun c => !p c) = true) : ∀ c ∈ rest.head?, p c = false := by
  intro c hc
  simpa using List.all_eq_true.mp hp c (h c hc)

theorem Delimits.not_wordChar {rest : List Char} (h : Delimits rest) :
    ∀ c ∈ rest.head?, Rule.isWordChar c = false := h.not (by decide)

theorem Delimits.not_alpha {rest : List Char} (h : Delimits rest) :
    ∀ c ∈ rest.head?, c.isAlpha = false := h.not (by decide)

theorem Delimits.not_decimal {rest : List Char} (h : Delimits rest) :
    ∀ c ∈ rest.head?, isDecimal c = false := h.not (by decide)

theorem Delimits.head?_ne {rest : List Char} (h : Delimits rest) {c : Char}
    (hc : c ∉ [' ', ',', ':', '\n']) : rest.head? ≠ some c := fun heq => hc (h c heq)

/-- A rule reads a text when it takes the whole of it and no earlier rule takes anything. -/
theorem lexes_of_rule {kind : Kind} {text rest : List Char} (rule : Rule) (hnil : text ≠ [])
    (hlexeme : rule.lexeme (text ++ rest) = text) (hkind : rule.kind text = .ok kind)
    (hbefore : ∀ r ∈ rule.before, r.lexeme (text ++ rest) = []) : Lexes kind text rest := by
  refine ⟨rule, Rule.first?_eq_some ?_ hbefore, hlexeme, hkind⟩
  rw [hlexeme]
  exact hnil

theorem lexes_newline {rest : List Char} (h : rest.head? ≠ some '\n') :
    Lexes .newline ['\n'] rest := by
  apply lexes_of_rule .newlines (by simp) _ rfl (by simp [Rule.before, Rule.all])
  apply Rule.takeWhile_append_stop (by simp)
  intro c hc
  simp only [decide_eq_false_iff_not]
  rintro rfl
  exact h hc

theorem lexes_word {c : Char} {cs rest : List Char} (hc : c.isAlpha = true)
    (hcs : ∀ d ∈ cs, Rule.isWordChar d = true)
    (hrest : ∀ d ∈ rest.head?, Rule.isWordChar d = false) :
    Lexes (Rule.wordKind (c :: cs)) (c :: cs) rest := by
  apply lexes_of_rule .word (by simp) _ rfl
  · intro rule hrule
    obtain rfl : rule = .newlines := by simpa [Rule.before, Rule.all] using hrule
    apply Rule.lexeme_eq_nil_of_opens
    simp only [Rule.opens, decide_eq_false_iff_not]
    rintro rfl
    exact absurd hc (by decide)
  · simp only [Rule.lexeme, Rule.wordLexeme, List.cons_append, hc, if_true]
    rw [Rule.takeWhile_append_stop hcs hrest]

theorem lexes_register (r : Register) {rest : List Char}
    (h : ∀ c ∈ rest.head?, c.isAlpha = false) : Lexes (.register r) r.text.toList rest := by
  have htext : r.text.toList = '%' :: r.name.toList := by simp [Register.text]
  have hname : ∀ c ∈ r.name.toList, c.isAlpha = true := by
    rw [← List.all_eq_true]
    cases r <;> rfl
  have hshort : r.name.toList.length ≤ 3 := by cases r <;> decide
  have hnil : r.name.toList ≠ [] := by cases r <;> decide
  have hbefore : ∀ rule ∈ Rule.register.before, rule.opens '%' = false := by decide
  rw [htext]
  apply lexes_of_rule .register (by simp)
  · simp only [Rule.lexeme, Rule.registerLexeme, List.cons_append]
    rw [Rule.takeWhile_append_stop hname h, List.take_of_length_le hshort]
    split
    · contradiction
    · rfl
  · simp [Rule.kind, Rule.registerKind, Register.ofName?_name]
  · exact fun rule hrule => Rule.lexeme_eq_nil_of_opens _ (hbefore rule hrule)

theorem lexes_mark {c : Char} {kind : Kind} {rest : List Char} (h : Rule.markOf? c = some kind) :
    Lexes kind [c] rest := by
  have hmark := Rule.mem_marks (Option.isSome_iff_exists.mpr ⟨kind, h⟩)
  have hbefore : Rule.noneOpens Rule.mark.before [',', ';', ':', '$'] = true := by decide
  apply lexes_of_rule .mark (by simp)
  · simp [Rule.lexeme, Rule.markLexeme, h]
  · simp [Rule.kind, Rule.markKind, h]
  · intro rule hrule
    exact Rule.lexeme_eq_nil_of_opens _ (Rule.opens_eq_false hbefore hmark rule hrule)

def digits : List Char := ['0', '1', '2', '3', '4', '5', '6', '7', '8', '9']

theorem mem_digits_of_isDigit {c : Char} (h : c.isDigit = true) : c ∈ digits := by
  have hrange : 48 ≤ c.toNat ∧ c.toNat ≤ 57 := by
    simpa [Char.isDigit, UInt32.le_iff_toNat_le] using h
  have hmem : ∀ n : Fin 10, Char.ofNat (48 + n) ∈ digits := by decide
  have hc := hmem ⟨c.toNat - 48, by omega⟩
  rwa [show 48 + (c.toNat - 48) = c.toNat by omega, Char.ofNat_toNat] at hc

/-- Only the rules of numbers can take digits. -/
theorem lexeme_digit_eq_nil {c : Char} {rule : Rule} (rest : List Char) (hc : c.isDigit = true)
    (hrule : rule ∈ Rule.float.before) : rule.lexeme (c :: rest) = [] := by
  have hnone : Rule.noneOpens Rule.float.before digits = true := by decide
  exact Rule.lexeme_eq_nil_of_opens rest
    (Rule.opens_eq_false hnone (mem_digits_of_isDigit hc) rule hrule)

theorem lexes_integer {text rest : List Char} {n : UInt32} (hnil : text ≠ [])
    (hdigits : ∀ c ∈ text, c.isDigit = true) (hvalue : Nat.ofDigitChars 10 text 0 = n.toNat)
    (h : Delimits rest) : Lexes (.integer n) text rest := by
  obtain ⟨c, cs, rfl⟩ := List.exists_cons_of_ne_nil hnil
  have hdecimal : ∀ d ∈ c :: cs, isDecimal d = true :=
    fun d hd => isDecimal_of_isDigit (hdigits d hd)
  apply lexes_of_rule .integer hnil
  · exact Rule.takeWhile_append_stop hdecimal h.not_decimal
  · have hall : (c :: cs).all Char.isDigit = true := List.all_eq_true.mpr hdigits
    simp [Rule.kind, Rule.integerKind, hall, hvalue, Rule.toWord?, n.toNat_lt]
  · intro rule hrule
    have hcases : rule ∈ Rule.float.before ∨ rule = .float ∨ rule = .hex := by
      simpa [Rule.before, Rule.all, or_assoc] using hrule
    rcases hcases with hearly | rfl | rfl
    · exact lexeme_digit_eq_nil _ (hdigits c (by simp)) hearly
    · apply Rule.floatLexeme_eq_nil
      rw [Rule.dropWhile_append_stop hdecimal h.not_decimal]
      exact h.head?_ne (by decide)
    · apply Rule.hexLexeme_eq_nil
      cases cs with
      | nil => exact h.head?_ne (by decide)
      | cons d cs =>
        intro hx
        obtain rfl : d = 'x' := by simpa using hx
        exact absurd (hdigits 'x' (by simp)) (by decide)

/-- The rule of floats takes digits around a point up to what is not a digit. -/
theorem lexeme_float {whole fraction rest : List Char} (hne : whole ≠ [] ∨ fraction ≠ [])
    (hwhole : ∀ c ∈ whole, isDecimal c = true) (hfraction : ∀ c ∈ fraction, isDecimal c = true)
    (hrest : ∀ c ∈ rest.head?, isDecimal c = false) :
    Rule.lexeme .float (whole ++ '.' :: fraction ++ rest) = whole ++ '.' :: fraction := by
  have hpoint : ∀ c ∈ ('.' :: (fraction ++ rest)).head?, isDecimal c = false := by
    intro c hc
    obtain rfl : '.' = c := by simpa using hc
    decide
  have hnonempty : (whole.isEmpty && fraction.isEmpty) = false := by
    simpa [imp_iff_not_or] using hne
  simp only [Rule.lexeme, Rule.floatLexeme, List.append_assoc, List.cons_append,
    Rule.takeWhile_append_stop hwhole hpoint, Rule.dropWhile_append_stop hwhole hpoint,
    Rule.takeWhile_append_stop hfraction hrest, hnonempty, Bool.false_eq_true, if_false]

/-- Around a point, digits of ASCII denote a number. -/
theorem kind_float {whole fraction : List Char} {x : Double}
    (hwhole : ∀ c ∈ whole, c.isDigit = true) (hfraction : ∀ c ∈ fraction, c.isDigit = true)
    (hvalue : Double.ofDecimal (Decimal.ofText (whole ++ '.' :: fraction)) = x) :
    Rule.kind .float (whole ++ '.' :: fraction) =
      if x.overflowsSingle then .error (.floatOverflow (String.ofList (whole ++ '.' :: fraction)))
      else .ok (.float x) := by
  have hascii : ((whole ++ '.' :: fraction).all fun c => c.isDigit || c = '.') = true := by
    simp only [List.all_append, List.all_cons, Bool.and_eq_true, List.all_eq_true]
    exact ⟨fun c hc => by simp [hwhole c hc], by simp, fun c hc => by simp [hfraction c hc]⟩
  simp only [Rule.kind, Rule.floatKind, hascii, if_true, hvalue]

theorem lexes_float {whole fraction rest : List Char} {x : Double} (hnil : whole ≠ [])
    (hwhole : ∀ c ∈ whole, c.isDigit = true) (hfraction : ∀ c ∈ fraction, c.isDigit = true)
    (hvalue : Double.ofDecimal (Decimal.ofText (whole ++ '.' :: fraction)) = x)
    (hx : x.overflowsSingle = false) (h : Delimits rest) :
    Lexes (.float x) (whole ++ '.' :: fraction) rest := by
  apply lexes_of_rule .float (by simp)
  · exact lexeme_float (.inl hnil) (fun c hc => isDecimal_of_isDigit (hwhole c hc))
      (fun c hc => isDecimal_of_isDigit (hfraction c hc)) h.not_decimal
  · rw [kind_float hwhole hfraction hvalue, hx]
    rfl
  · intro rule hrule
    obtain ⟨c, cs, rfl⟩ := List.exists_cons_of_ne_nil hnil
    exact lexeme_digit_eq_nil _ (hwhole c (by simp)) hrule

end Token

end FourVin
