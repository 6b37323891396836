import FourVin.Proofs.Program.Soundness
import FourVin.Proofs.Token.Forms
import FourVin.Proofs.Token.Tiling

/-!
What lexical faults say of the source. A scan stops where no rule applies, or where the text that a
rule takes means nothing, and its fault names what stands there. Each kind of fault is a statement
about the text at its location, `Cause.TrueOf`: a character that begins no token, a register that
there is not, an integer that does not fit in a word, a float that is infinite in single precision.

Every fault is true but for those about numbers with digits that are not of ASCII. The rules of
numbers take such digits and then give them no value: an integer is reported as too large whatever
its digits denote, and a float as an unexpected point.
-/
namespace FourVin

open Text

/-- What is wrong with the front of an input: no rule applies, or the first that does takes a text
without meaning. -/
inductive Rule.Fault (input : List Char) : Cause → Prop
  | unmatched {c : Char} : input.head? = some c → first? input = none →
      Fault input (.unexpectedCharacter c)
  | rejected {rule : Rule} {cause : Cause} : first? input = some rule →
      rule.kind (rule.lexeme input) = .error cause → Fault input cause

/-- The token that the first rule that applies takes from `input`, which stands behind `front`. -/
inductive Token.CutFrom (file : String) (front input : List Char) : Token → Prop
  | cut {rule : Rule} {kind : Kind} : Rule.first? input = some rule →
      rule.kind (rule.lexeme input) = .ok kind →
      CutFrom file front input
        ⟨kind, String.ofList (rule.lexeme input), ⟨file, Position.start.advance front⟩⟩

namespace Token

/-- A scan cuts its tokens out of what stands behind the text that it has passed, and its fault is
one of what follows them. -/
theorem origins_scanFrom (file : String) (p : Position) (front input : List Char)
    (hp : p = Position.start.advance front) :
    (∀ t ∈ (scanFrom file p input).tokens, ∃ before rest, front ++ input = before ++ rest ∧
      t.CutFrom file before rest) ∧
    ∀ d ∈ (scanFrom file p input).failure, ∃ before rest, front ++ input = before ++ rest ∧
      d.location = ⟨file, Position.start.advance before⟩ ∧ Rule.Fault rest d.cause := by
  have hgap : ∀ (front : List Char) {input rest : List Char},
      input.drop (gap input).length = rest → front ++ input = front ++ gap input ++ rest := by
    rintro front input rest rfl
    exact (Scan.append_gap front input).symm
  fun_induction scanFrom file p input generalizing front with
  | case1 p input hfront => simp
  | case2 p input start c rest hfront hrule =>
    refine ⟨by simp, ?_⟩
    rintro d ⟨⟩
    exact ⟨_, _, hgap front hfront, by rw [Position.advance_append, ← hp], .unmatched rfl hrule⟩
  | case3 p input start c rest hfront rule hrule text cause hkind =>
    refine ⟨by simp, ?_⟩
    rintro d ⟨⟩
    exact ⟨_, _, hgap front hfront, by rw [Position.advance_append, ← hp], .rejected hrule hkind⟩
  | case4 p input start c rest hfront rule hrule text kind hkind hlt behind ih =>
    have htext : text ++ (c :: rest).drop text.length = c :: rest :=
      List.prefix_iff_eq_append.mp (Rule.lexeme_isPrefix rule (c :: rest))
    have hsource : front ++ gap input ++ text ++ (c :: rest).drop text.length = front ++ input := by
      rw [List.append_assoc _ text, htext, hgap front hfront]
    have hbehind := ih (front ++ gap input ++ text)
      (by rw [Position.advance_append, Position.advance_append, ← hp])
    rw [hsource] at hbehind
    refine ⟨?_, hbehind.2⟩
    intro t ht
    rcases List.mem_cons.mp ht with rfl | ht
    · refine ⟨front ++ gap input, c :: rest, hgap front hfront, ?_⟩
      have hstart : start = Position.start.advance (front ++ gap input) := by
        rw [Position.advance_append, ← hp]
      rw [hstart]
      exact .cut hrule hkind
    · exact hbehind.1 t ht

/-- Every token is cut out of the source at its location. -/
theorem cut_of_ofSource {file source : String} {tokens : List Token}
    (h : ofSource file source = .ok tokens) : ∀ t ∈ tokens, ∃ front input,
      source.toList = front ++ input ∧ t.CutFrom file front input := by
  have horigins := (origins_scanFrom file .start [] source.toList rfl).1
  unfold ofSource Scan.ofSource at h
  split at h
  · next heq =>
    cases h
    rw [heq] at horigins
    simpa only [List.nil_append] using horigins
  · cases h

/-- A scan fails where the front of what is left has a fault. -/
theorem fault_of_ofSource {file source : String} {d : Diagnostic}
    (h : ofSource file source = .error d) : ∃ front input, source.toList = front ++ input ∧
      d.location = ⟨file, .behind (String.ofList front)⟩ ∧ Rule.Fault input d.cause := by
  have horigins := (origins_scanFrom file .start [] source.toList rfl).2
  unfold ofSource Scan.ofSource at h
  split at h
  · cases h
  · next heq =>
    cases h
    rw [heq] at horigins
    obtain ⟨front, input, hsource, hlocation, hfault⟩ := horigins d rfl
    exact ⟨front, input, hsource, hlocation.trans (by rw [Position.advance_start]), hfault⟩

end Token

/-- The number that a numeral denotes: decimal digits, or `0x` and hexadecimal digits. -/
inductive Text.Denotes : List Char → Nat → Prop
  | decimal {digits : List Char} : digits ≠ [] → (∀ c ∈ digits, c.isDigit = true) →
      Denotes digits (Nat.ofDigitChars 10 digits 0)
  | hexadecimal {digits : List Char} : digits ≠ [] → (∀ c ∈ digits, isHexDigit c = true) →
      Denotes ('0' :: 'x' :: digits) (ofHexDigits digits)

namespace Cause

inductive TrueOf (input : List Char) : Cause → Prop
  /-- The text begins with the character and with no token. -/
  | unexpectedCharacter {c : Char} : input.head? = some c →
      (∀ rule text, text <+: input → ¬ Rule.Describes rule text) →
      TrueOf input (.unexpectedCharacter c)
  /-- The text begins with a percent sign and letters, at most three and no fewer than there are,
  that name no register. -/
  | unknownRegister {letters rest : List Char} : input = '%' :: letters ++ rest → letters ≠ [] →
      letters.length ≤ 3 → (∀ c ∈ letters, c.isAlpha = true) →
      (letters.length < 3 → ∀ c ∈ rest.head?, c.isAlpha = false) →
      (∀ r : Register, r.name ≠ String.ofList letters) →
      TrueOf input (.unknownRegister (String.ofList ('%' :: letters)))
  /-- The text begins with a numeral of more than 32 bits. -/
  | integerOverflow {text : List Char} {value : Nat} : text <+: input → Denotes text value →
      2 ^ 32 ≤ value → TrueOf input (.integerOverflow (String.ofList text))
  /-- The text begins with a float of ASCII digits that becomes the infinity of single precision. -/
  | floatOverflow {text : List Char} : text <+: input → Rule.Describes .float text →
      (∀ c ∈ text, c.isDigit = true ∨ c = '.') →
      (Double.ofDecimal (Decimal.ofText text)).toSingle = 0x7F800000 →
      TrueOf input (.floatOverflow (String.ofList text))

theorem TrueOf.denotes {input : List Char} {text : String}
    (h : (Cause.integerOverflow text).TrueOf input) : ∃ value, Denotes text.toList value ∧
      2 ^ 32 ≤ value := by
  generalize hcause : Cause.integerOverflow text = cause at h
  cases h with
  | integerOverflow _ hdenotes hle =>
    cases hcause
    rw [String.toList_ofList]
    exact ⟨_, hdenotes, hle⟩
  | _ => cases hcause

/-- What the faults about digits that are not of ASCII say, whatever the digits denote. -/
inductive Misreports (input : List Char) : Cause → Prop
  | integer {text : List Char} : text <+: input → Rule.Describes .integer text →
      (∃ c ∈ text, c.isDigit = false) → Misreports input (.integerOverflow (String.ofList text))
  | float {text : List Char} : text <+: input → Rule.Describes .float text →
      (∃ c ∈ text, c.isDigit = false ∧ c ≠ '.') → Misreports input (.unexpectedCharacter '.')

end Cause

namespace Rule

theorem le_of_toWord?_eq_none {value : Nat} (h : toWord? value = none) : 2 ^ 32 ≤ value := by
  simpa [toWord?, UInt32.size] using h

/-- A name that the register rule takes can be extended by no letter, unless it has three. -/
theorem not_isAlpha_behind_register {letters rest : List Char} (hlength : letters.length < 3)
    (hletters : ∀ c ∈ letters, c.isAlpha = true)
    (hlexeme : lexeme register ('%' :: letters ++ rest) = '%' :: letters) :
    ∀ c ∈ rest.head?, c.isAlpha = false := by
  intro c hc
  rw [← Bool.not_eq_true]
  intro halpha
  obtain ⟨behind, rfl⟩ := List.head?_eq_some_iff.mp hc
  have hlonger : Describes register ('%' :: (letters ++ [c])) := by
    refine .register (by simp) ?_ ?_
    · rw [List.length_append]
      exact hlength
    · simpa [or_imp, forall_and] using ⟨hletters, halpha⟩
  have hprefix := hlonger.prefix_lexeme behind
  rw [← List.cons_append, List.append_assoc, List.singleton_append, hlexeme] at hprefix
  simpa using hprefix.length_le

theorem trueOf_of_registerKind {input : List Char} {cause : Cause}
    (htext : Describes register (lexeme register input))
    (h : registerKind (lexeme register input) = .error cause) : cause.TrueOf input := by
  obtain ⟨rest, hinput⟩ := lexeme_isPrefix register input
  generalize hlexeme : lexeme register input = text at *
  cases htext with
  | @register letters hne hlength hletters =>
    subst hinput
    simp only [registerKind, List.tail_cons] at h
    split at h
    · cases h
    · next hnone =>
      cases h
      refine .unknownRegister rfl hne hlength hletters ?_ ?_
      · intro hlt
        exact not_isAlpha_behind_register hlt hletters hlexeme
      · intro r hr
        rw [Register.ofName?_eq_some_iff.mpr hr] at hnone
        cases hnone

theorem trueOf_or_misreports_of_floatKind {input text : List Char} {cause : Cause}
    (hfront : text <+: input) (htext : Describes float text)
    (h : floatKind text = .error cause) : cause.TrueOf input ∨ cause.Misreports input := by
  simp only [floatKind] at h
  split at h
  · next hascii =>
    split at h
    · next hoverflow =>
      cases h
      refine .inl (.floatOverflow hfront htext ?_ ?_)
      · simpa using hascii
      · have hmagnitude : (Double.ofDecimal (Decimal.ofText text)).singleMagnitude =
            Format.single.infinity := by simpa [Double.overflowsSingle] using hoverflow
        rw [Double.toSingle, Double.negative_ofDecimal, hmagnitude]
        rfl
    · cases h
  · next hforeign =>
    cases h
    refine .inr (.float hfront htext ?_)
    simpa [not_or] using hforeign

theorem trueOf_of_hexKind {input text : List Char} {cause : Cause} (hfront : text <+: input)
    (htext : Describes hex text) (h : hexKind text = .error cause) : cause.TrueOf input := by
  cases htext with
  | hex hne hdigits =>
    simp only [hexKind, List.drop_succ_cons, List.drop_zero] at h
    split at h
    · cases h
    · next hnone =>
      cases h
      exact .integerOverflow hfront (.hexadecimal hne hdigits) (le_of_toWord?_eq_none hnone)

theorem trueOf_or_misreports_of_integerKind {input text : List Char} {cause : Cause}
    (hfront : text <+: input) (htext : Describes integer text)
    (h : integerKind text = .error cause) : cause.TrueOf input ∨ cause.Misreports input := by
  simp only [integerKind] at h
  split at h
  · cases h
  · next hnone =>
    cases h
    split at hnone
    · next hascii =>
      have hdigits : ∀ c ∈ text, c.isDigit = true := List.all_eq_true.mp hascii
      exact .inl (.integerOverflow hfront (.decimal htext.ne_nil hdigits)
        (le_of_toWord?_eq_none hnone))
    · next hforeign => exact .inr (.integer hfront htext (by simpa using hforeign))

theorem markKind_ne_error {text : List Char} {cause : Cause} (htext : Describes mark text) :
    markKind text ≠ .error cause := by
  cases htext with
  | mark hc =>
    obtain ⟨kind, hkind⟩ := Option.isSome_iff_exists.mp hc
    simp [markKind, hkind]

/-- A fault is true of the text that has it, or is about digits that are not of ASCII. -/
theorem Fault.trueOf_or_misreports {input : List Char} {cause : Cause} (h : Fault input cause) :
    cause.TrueOf input ∨ cause.Misreports input := by
  cases h with
  | unmatched hc hnone =>
    exact .inl (.unexpectedCharacter hc fun rule text => not_describes_of_first? hnone)
  | @rejected rule cause hrule hkind =>
    have hprefix := lexeme_isPrefix rule input
    have htext := describes_of_first? hrule
    cases rule with
    | newlines => cases hkind
    | word => cases hkind
    | register => exact .inl (trueOf_of_registerKind htext hkind)
    | float => exact trueOf_or_misreports_of_floatKind hprefix htext hkind
    | hex => exact .inl (trueOf_of_hexKind hprefix htext hkind)
    | integer => exact trueOf_or_misreports_of_integerKind hprefix htext hkind
    | mark => exact absurd hkind (markKind_ne_error htext)

end Rule

/-- Where a scan fails, the fault is true of the text at its location, but for a number with digits
that are not of ASCII. -/
theorem Token.faults_true_but_of_foreign_digits {file source : String} {d : Diagnostic}
    (h : ofSource file source = .error d) : ∃ front input, source.toList = front ++ input ∧
      d.location = ⟨file, .behind (String.ofList front)⟩ ∧
      (d.cause.TrueOf input ∨ d.cause.Misreports input) := by
  obtain ⟨front, input, hsource, hlocation, hfault⟩ := fault_of_ofSource h
  exact ⟨front, input, hsource, hlocation, hfault.trueOf_or_misreports⟩

theorem Token.faults_true_but_of_foreign_digits_register :
    ofSource "t" "MOV %RX, 1" = .error ⟨⟨"t", ⟨1, 5⟩⟩, .unknownRegister "%RX"⟩ ∧
      ∃ front input, "MOV %RX, 1".toList = front ++ input ∧
        (⟨"t", ⟨1, 5⟩⟩ : Location) = ⟨"t", .behind (String.ofList front)⟩ ∧
        ((Cause.unknownRegister "%RX").TrueOf input ∨
          (Cause.unknownRegister "%RX").Misreports input) := by
  have herror :
      ofSource "t" "MOV %RX, 1" = .error ⟨⟨"t", ⟨1, 5⟩⟩, .unknownRegister "%RX"⟩ := by
    decide +kernel
  exact ⟨herror, faults_true_but_of_foreign_digits herror⟩

/-- A float with an Arabic digit is reported as an unexpected point, which does not stand there,
and the digit alone as an integer of more than 32 bits. -/
theorem Token.foreign_digits_misreported :
    (ofSource "t" "\u0663.5" = .error ⟨⟨"t", ⟨1, 1⟩⟩, .unexpectedCharacter '.'⟩ ∧
      ¬ (Cause.unexpectedCharacter '.').TrueOf "\u0663.5".toList) ∧
    ofSource "t" "\u0663" = .error ⟨⟨"t", ⟨1, 1⟩⟩, .integerOverflow "\u0663"⟩ ∧
      ¬ (Cause.integerOverflow "\u0663").TrueOf "\u0663".toList := by
  refine ⟨⟨by decide +kernel, ?_⟩, by decide +kernel, ?_⟩
  · rintro ⟨hhead, -⟩
    exact absurd hhead (by decide)
  · intro htrue
    obtain ⟨value, hdenotes, -⟩ := htrue.denotes
    rw [show "\u0663".toList = ['\u0663'] by decide] at hdenotes
    cases hdenotes with
    | decimal _ hdigits => exact absurd (hdigits _ (List.mem_singleton_self _)) (by decide)

end FourVin
