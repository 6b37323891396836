import FourVin.Proofs.Token.Forms

/-!
Scanning by longest match. The rules are tried in a fixed order, and the first that applies wins.
The same is said here without an order: of all texts of tokens at the front of an input, the longest
one is taken, and only one rule describes it. A rule shares the characters that it can begin with
only with rules of its family, and among numbers the longer text has a character in it, the point or
the letter behind the zero, that the shorter text cannot have.
-/
namespace FourVin

open Text

theorem Text.isDigit_or_le_of_isDecimal {c : Char} (h : isDecimal c = true) :
    c.isDigit = true ∨ 0x660 ≤ c.toNat := by
  have hzeros : ∀ first ∈ decimalZeros, first = 48 ∨ 0x660 ≤ first := by decide
  obtain ⟨first, hfirst, hrange⟩ := List.any_eq_true.mp h
  simp only [Bool.and_eq_true, decide_eq_true_eq] at hrange
  rcases hzeros first hfirst with rfl | hle
  · left
    simp only [Char.isDigit, Bool.and_eq_true, decide_eq_true_eq, ge_iff_le,
      UInt32.le_iff_toNat_le]
    exact ⟨hrange.1, by simpa using Nat.le_of_lt_succ hrange.2⟩
  · right
    omega

theorem Text.toNat_lt_of_isAlpha {c : Char} (h : c.isAlpha = true) : c.toNat < 128 := by
  rcases (Bool.or_eq_true_iff (x := c.isUpper) (y := c.isLower)).mp h with hupper | hlower
  · have hle : c.val ≤ 'Z'.val := (of_decide_eq_true hupper).2
    exact Nat.lt_of_le_of_lt (UInt32.le_iff_toNat_le.mp hle) (by decide)
  · have hle : c.val ≤ 'z'.val := of_decide_eq_true (Bool.and_eq_true_iff.mp hlower).2
    exact Nat.lt_of_le_of_lt (UInt32.le_iff_toNat_le.mp hle) (by decide)

namespace Rule

/-- The rules of numbers are one family, and every other rule is one by itself. -/
def family : Rule → Rule
  | float => integer
  | hex => integer
  | rule => rule

def familyOf (c : Char) : Rule :=
  if c = '\n' then newlines
  else if c.isAlpha then word
  else if c = '%' then register
  else if isDecimal c || c = '.' then integer
  else mark

theorem familyOf_decimal {c : Char} (h : isDecimal c = true) : familyOf c = integer := by
  rcases isDigit_or_le_of_isDecimal h with hdigit | hle
  · have hdigits : (Token.digits.all fun d => familyOf d = integer) = true := by decide
    simpa using List.all_eq_true.mp hdigits c (Token.mem_digits_of_isDigit hdigit)
  · have hne : ∀ d : Char, d.toNat < 0x660 → c ≠ d := by
      rintro d hd rfl
      omega
    have halpha : c.isAlpha = false := by
      rw [← Bool.not_eq_true]
      intro halpha
      have := toNat_lt_of_isAlpha halpha
      omega
    simp [familyOf, hne '\n' (by decide), hne '%' (by decide), halpha, h]

/-- Rules that can begin with the same character are of one family. -/
theorem family_of_opens {rule : Rule} {c : Char} (h : rule.opens c = true) :
    rule.family = familyOf c := by
  cases rule with
  | newlines =>
    obtain rfl : c = '\n' := by simpa [opens] using h
    rfl
  | word =>
    have hc : c ≠ '\n' := by
      rintro rfl
      exact absurd h (by decide)
    have halpha : c.isAlpha = true := h
    simp [family, familyOf, hc, halpha]
  | register =>
    obtain rfl : c = '%' := by simpa [opens] using h
    rfl
  | float =>
    have hc : isDecimal c = true ∨ c = '.' := by simpa [opens] using h
    rcases hc with hc | rfl
    · exact (familyOf_decimal hc).symm
    · decide
  | hex =>
    obtain rfl : c = '0' := by simpa [opens] using h
    decide
  | integer => exact (familyOf_decimal h).symm
  | mark =>
    have hmarks : ([',', ';', ':', '$'].all fun d => familyOf d = mark) = true := by decide
    have hmark : familyOf c = mark := by simpa using List.all_eq_true.mp hmarks c (mem_marks h)
    exact hmark.symm

theorem opens_of_describes {rule : Rule} {c : Char} {text rest : List Char}
    (h : rule.Describes text) (htext : text <+: c :: rest) : rule.opens c = true := by
  by_contra hopens
  have hnil := lexeme_eq_nil_of_opens rest (Bool.not_eq_true _ ▸ hopens)
  exact lexeme_eq_nil_iff.mp hnil text htext h

/-- Of two texts at the front of an input, one that lacks a character of the other is shorter. -/
theorem length_lt_of_not_mem {c : Char} {text longer input : List Char} (htext : text <+: input)
    (hlonger : longer <+: input) (hc : c ∈ longer) (hnot : c ∉ text) :
    text.length < longer.length := by
  by_contra hle
  have hwithin := List.prefix_of_prefix_length_le hlonger htext (Nat.le_of_not_lt hle)
  exact hnot (hwithin.subset hc)

theorem point_mem_of_float {text : List Char} (h : Describes float text) : '.' ∈ text := by
  cases h with
  | float _ _ _ => simp

theorem x_mem_of_hex {text : List Char} (h : Describes hex text) : 'x' ∈ text := by
  cases h with
  | hex _ _ => simp

/-- No rule that is tried before the first one that applies takes anything. -/
theorem lexeme_eq_nil_of_before {rule other : Rule} {input : List Char}
    (h : first? input = some rule) (hother : other ∈ rule.before) : other.lexeme input = [] := by
  have hfind : ∀ rules : List Rule, rules.find? (fun r => r.applies input) = some rule →
      other ∈ rules.takeWhile (· ≠ rule) → other.applies input = false := by
    intro rules
    induction rules with
    | nil => simp
    | cons r rules ih =>
      intro hfind hmem
      rw [List.find?_cons] at hfind
      split at hfind
      · cases hfind
        simp at hmem
      · next hr =>
        rw [List.takeWhile_cons] at hmem
        split at hmem
        · rcases List.mem_cons.mp hmem with rfl | hmem
          · exact hr
          · exact ih hfind hmem
        · cases hmem
  simpa [applies] using hfind all h hother

theorem family_of_mem_before_float {rule : Rule} (h : rule ∈ float.before) :
    rule.family ≠ float.family := by
  have hcases : rule = newlines ∨ rule = word ∨ rule = register := by
    simpa [before, all] using h
  rcases hcases with rfl | rfl | rfl <;> simp [family]

/-- Where a float stands, no earlier rule applies. -/
theorem first?_float {text : List Char} (rest : List Char) (h : Describes float text) :
    first? (text ++ rest) = some float := by
  have hfront : text <+: text ++ rest := List.prefix_append text rest
  obtain ⟨c, cs, hinput⟩ : ∃ c cs, text ++ rest = c :: cs :=
    List.exists_cons_of_ne_nil (by simp [h.ne_nil])
  rw [hinput] at hfront ⊢
  have hfamily := family_of_opens (opens_of_describes h hfront)
  refine first?_eq_some ?_ ?_
  · intro hnil
    exact lexeme_eq_nil_iff.mp hnil text hfront h
  · intro rule hrule
    apply lexeme_eq_nil_of_opens
    rw [← Bool.not_eq_true]
    intro hopens
    exact family_of_mem_before_float hrule ((family_of_opens hopens).trans hfamily.symm)

theorem eq_or_number_of_family {rule other : Rule} (h : rule.family = other.family) :
    rule = other ∨ rule.family = integer := by
  cases rule with
  | float | hex | integer => exact .inr rfl
  | newlines | word | register | mark =>
    cases other with
    | newlines | word | register | mark => exact .inl h
    | float | hex | integer => cases h

/-- What any other rule describes at the front is shorter than what the first rule takes. -/
theorem length_lt_of_first? {rule other : Rule} {input text : List Char}
    (h : first? input = some rule) (htext : text <+: input) (hother : other.Describes text)
    (hne : other ≠ rule) : text.length < (rule.lexeme input).length := by
  have hrule := describes_of_first? h
  have hlexeme := lexeme_isPrefix rule input
  have hbefore : other ∉ rule.before := by
    intro hmem
    exact lexeme_eq_nil_iff.mp (lexeme_eq_nil_of_before h hmem) text htext hother
  have hfamily : rule.family = other.family := by
    cases input with
    | nil => exact absurd (List.prefix_nil.mp htext) hother.ne_nil
    | cons c rest =>
      rw [family_of_opens (opens_of_describes hrule hlexeme),
        family_of_opens (opens_of_describes hother htext)]
  have hnumber := (eq_or_number_of_family hfamily).resolve_left (Ne.symm hne)
  have hnumber' := hfamily.symm.trans hnumber
  -- Both are rules of numbers, and the other one is tried later.
  cases rule with
  | float =>
    have hpoint := point_mem_of_float hrule
    cases other with
    | float => exact absurd rfl hne
    | hex | integer =>
      exact length_lt_of_not_mem htext hlexeme hpoint (hother.not_mem (by decide))
    | newlines | word | register | mark => cases hnumber'
  | hex =>
    cases other with
    | float => exact absurd (by decide) hbefore
    | hex => exact absurd rfl hne
    | integer =>
      exact length_lt_of_not_mem htext hlexeme (x_mem_of_hex hrule)
        (hother.not_mem (by decide))
    | newlines | word | register | mark => cases hnumber'
  | integer =>
    cases other with
    | float | hex => exact absurd (by decide) hbefore
    | integer => exact absurd rfl hne
    | newlines | word | register | mark => cases hnumber'
  | newlines | word | register | mark => cases hnumber

/-- The longest text of a token at the front of an input, with the only rule that describes it. -/
structure LongestMatch (input : List Char) (rule : Rule) (text : List Char) : Prop where
  front : text <+: input
  describes : rule.Describes text
  longest : ∀ other shorter, shorter <+: input → Describes other shorter →
    shorter.length ≤ text.length
  alone : ∀ other same, same <+: input → Describes other same → same.length = text.length →
    other = rule

theorem longestMatch_of_first? {rule : Rule} {input : List Char} (h : first? input = some rule) :
    LongestMatch input rule (rule.lexeme input) where
  front := lexeme_isPrefix rule input
  describes := describes_of_first? h
  longest := by
    intro other shorter hshorter hother
    by_cases hne : other = rule
    · subst hne
      obtain ⟨rest, rfl⟩ := hshorter
      exact (hother.prefix_lexeme rest).length_le
    · exact Nat.le_of_lt (length_lt_of_first? h hshorter hother hne)
  alone := by
    intro other same hsame hother hlength
    by_contra hne
    have hlt := length_lt_of_first? h hsame hother hne
    omega

/-- Trying the rules in order is taking the longest match. -/
theorem first?_eq_some_iff_longestMatch {rule : Rule} {input text : List Char} :
    first? input = some rule ∧ rule.lexeme input = text ↔ LongestMatch input rule text := by
  constructor
  · rintro ⟨hfirst, rfl⟩
    exact longestMatch_of_first? hfirst
  · intro h
    cases hfirst : first? input with
    | none => exact absurd h.describes (not_describes_of_first? hfirst h.front)
    | some other =>
      have hother := longestMatch_of_first? hfirst
      have hlength : text.length = (other.lexeme input).length :=
        Nat.le_antisymm (hother.longest rule text h.front h.describes)
          (h.longest other _ hother.front hother.describes)
      obtain rfl : rule = other := hother.alone rule text h.front h.describes hlength
      refine ⟨rfl, ?_⟩
      exact (List.prefix_of_prefix_length_le hother.front h.front
        (Nat.le_of_eq hlength.symm)).eq_of_length hlength.symm

theorem first?_of_describes {rule : Rule} {text : List Char} (h : rule.Describes text) :
    first? text = some rule := by
  cases hfirst : first? text with
  | none => exact absurd h (not_describes_of_first? hfirst List.prefix_rfl)
  | some other =>
    by_contra hne
    have hlt := length_lt_of_first? hfirst List.prefix_rfl h fun heq => hne (congrArg some heq.symm)
    have hle := (lexeme_isPrefix other text).length_le
    omega

/-- Two rules that apply to one input take texts of different lengths. -/
theorem length_lexeme_ne {rule other : Rule} {input : List Char} (hrule : rule.applies input = true)
    (hother : other.applies input = true) (hne : rule ≠ other) :
    (rule.lexeme input).length ≠ (other.lexeme input).length := by
  have hdescribes : ∀ r : Rule, r.applies input = true → r.Describes (r.lexeme input) := by
    intro r hr
    exact (lexeme_eq_nil_or_describes r input).resolve_left (by simpa [applies] using hr)
  intro hlength
  have hwithin := List.prefix_of_prefix_length_le (lexeme_isPrefix rule input)
    (lexeme_isPrefix other input) (Nat.le_of_eq hlength)
  have hfirst := first?_of_describes (hdescribes rule hrule)
  rw [hwithin.eq_of_length hlength, first?_of_describes (hdescribes other hother)] at hfirst
  exact hne (Option.some.inj hfirst).symm

end Rule

/-- The scan of `input`, which begins at position `p` of the file, by longest match: the order of
the rules does not enter. -/
inductive Scan.ByLongestMatch (file : String) : Position → List Char → Scan → Prop
  | ending {p : Position} {input : List Char} : input.drop (Token.gap input).length = [] →
      ByLongestMatch file p input ⟨[], none⟩
  /-- No text of a token stands behind the gap. -/
  | unmatched {p : Position} {input : List Char} {c : Char} {rest : List Char} :
      input.drop (Token.gap input).length = c :: rest →
      (∀ rule text, text <+: c :: rest → ¬ Rule.Describes rule text) →
      ByLongestMatch file p input
        ⟨[], some ⟨⟨file, p.advance (Token.gap input)⟩, .unexpectedCharacter c⟩⟩
  /-- The longest text of a token means nothing. -/
  | rejected {p : Position} {input : List Char} {rule : Rule} {text : List Char} {cause : Cause} :
      Rule.LongestMatch (input.drop (Token.gap input).length) rule text →
      rule.kind text = .error cause →
      ByLongestMatch file p input ⟨[], some ⟨⟨file, p.advance (Token.gap input)⟩, cause⟩⟩
  | token {p : Position} {input : List Char} {rule : Rule} {text rest : List Char}
      {kind : Token.Kind} {behind : Scan} :
      input.drop (Token.gap input).length = text ++ rest →
      Rule.LongestMatch (text ++ rest) rule text → rule.kind text = .ok kind →
      ByLongestMatch file ((p.advance (Token.gap input)).advance text) rest behind →
      ByLongestMatch file p input
        ⟨⟨kind, String.ofList text, ⟨file, p.advance (Token.gap input)⟩⟩ :: behind.tokens,
          behind.failure⟩

namespace Scan

theorem byLongestMatch_scanFrom (file : String) (p : Position) (input : List Char) :
    ByLongestMatch file p input (Token.scanFrom file p input) := by
  fun_induction Token.scanFrom file p input with
  | case1 p input hfront => exact .ending hfront
  | case2 p input start c rest hfront hrule =>
    exact .unmatched hfront fun rule text => Rule.not_describes_of_first? hrule
  | case3 p input start c rest hfront rule hrule text cause hkind =>
    exact .rejected (hfront ▸ Rule.longestMatch_of_first? hrule) hkind
  | case4 p input start c rest hfront rule hrule text kind hkind hlt behind ih =>
    have hsplit : text ++ (c :: rest).drop text.length = c :: rest :=
      List.prefix_iff_eq_append.mp (Rule.lexeme_isPrefix rule (c :: rest))
    exact .token (hfront.trans hsplit.symm) (hsplit.symm ▸ Rule.longestMatch_of_first? hrule)
      hkind ih

theorem eq_scanFrom_of_byLongestMatch {file : String} {p : Position} {input : List Char}
    {scan : Scan} (h : ByLongestMatch file p input scan) :
    scan = Token.scanFrom file p input := by
  induction h with
  | ending hend => rw [Token.scanFrom_eq, hend]
  | @unmatched p input c rest hfront hnone =>
    have hrule : Rule.first? (c :: rest) = none := by
      cases hfirst : Rule.first? (c :: rest) with
      | none => rfl
      | some rule =>
        exact absurd (Rule.describes_of_first? hfirst) (hnone rule _ (Rule.lexeme_isPrefix rule _))
    simp only [Token.scanFrom_eq, hfront, hrule]
  | rejected hmatch hkind =>
    obtain ⟨hfirst, rfl⟩ := Rule.first?_eq_some_iff_longestMatch.mpr hmatch
    rw [Token.scanFrom_of_first? file _ rfl hfirst, hkind]
  | token hfront hmatch hkind _ ih =>
    obtain ⟨hfirst, hlexeme⟩ := Rule.first?_eq_some_iff_longestMatch.mpr hmatch
    rw [Token.scanFrom_of_first? file _ hfront hfirst]
    simp only [hlexeme, hkind, List.drop_left, ← ih]

/-- Scanning takes the longest match everywhere: the first rule that applies is the only one that
describes the longest text of a token at the front, no two rules take texts of one length, and the
scan of a source is the one by longest match. -/
theorem ofSource_takes_longest_match (file source : String) :
    (∀ input rule text, Rule.first? input = some rule ∧ rule.lexeme input = text ↔
      Rule.LongestMatch input rule text) ∧
    (∀ (input : List Char) (rule other : Rule), rule.applies input = true →
      other.applies input = true → rule ≠ other →
      (rule.lexeme input).length ≠ (other.lexeme input).length) ∧
    ∀ scan, ByLongestMatch file .start source.toList scan ↔ scan = ofSource file source := by
  refine ⟨fun _ _ _ => Rule.first?_eq_some_iff_longestMatch,
    fun _ _ _ => Rule.length_lexeme_ne, ?_⟩
  intro scan
  constructor
  · exact eq_scanFrom_of_byLongestMatch
  · rintro rfl
    exact byLongestMatch_scanFrom file .start source.toList

/-- A hexadecimal number, where the rule of integers would take the zero alone. -/
theorem ofSource_takes_longest_match_hexNumber :
    Rule.LongestMatch "0x1F;".toList .hex "0x1F".toList ∧
      (Rule.lexeme .hex "0x1F;".toList).length ≠ (Rule.lexeme .integer "0x1F;".toList).length ∧
      ByLongestMatch "t" .start "0x1F;".toList (ofSource "t" "0x1F;") := by
  obtain ⟨hfirst, hlengths, hscan⟩ := ofSource_takes_longest_match "t" "0x1F;"
  exact ⟨(hfirst _ _ _).mp ⟨by decide, by decide⟩,
    hlengths _ _ _ (by decide) (by decide) (by decide), (hscan _).mpr rfl⟩

end Scan

end FourVin
